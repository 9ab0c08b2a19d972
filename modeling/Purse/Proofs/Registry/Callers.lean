import Purse.Proofs.Registry.Lines
import Purse.Relay
import Purse.Selection.Fetch
import Purse.Totals

/-!
# Those who call for refreshes

A refresh is called for by itself, in the course of a fetch, of a sum of balances, or by
a listener. `Calls` are the programs that are put together of refreshes under one ticket
and of turns beside them, which change engines, load a wallet or remove one (`Aside`). All
that can be asked of a registry is such a program (`Request.calls`). In the lines for refresh
locks such a program moves nobody but itself (`Onward`).

A turn of such a program comes to acts of a company: the registry is the same, and what
the program has left of a refresh is what the company has left of it (`Stands.follows`,
`Stands.givenUp`).
-/

namespace Purse

variable {ε α β : Type}

namespace Registry

variable {s s' : Registry ε} {n ticket : Nat} {w : WalletId}

/-! ## Beside refreshes -/

/-- One registry becomes the other while no refresh has a turn. -/
inductive Aside : Registry ε → Registry ε → Prop
  | refl (s : Registry ε) : Aside s s
  | engines (s : Registry ε) (engines : List ε) : Aside s { s with engines }
  | add {s : Registry ε} {w : WalletId} (access : Access) (h : s.key? w = none) :
      Aside s (s.add w access)
  | remove (s : Registry ε) (w : WalletId) :
      Aside s { s with wallets := s.wallets.filter (·.1 ≠ w) }
  | trans {s s' s'' : Registry ε} (h : Aside s s') (h' : Aside s' s'') : Aside s s''

instance : Std.Refl (Aside (ε := ε)) := ⟨.refl⟩

instance : Trans (Aside (ε := ε)) Aside Aside := ⟨.trans⟩

theorem EngineOnly.aside (h : EngineOnly n s s') : Aside s s' := by
  obtain ⟨config, engines, registrations, wallets⟩ := s'
  obtain ⟨hconfig, hregistrations, hwallets, -⟩ := h
  dsimp only at hconfig hregistrations hwallets
  rw [hconfig, hregistrations, hwallets]
  exact .engines s engines

/-! ## Who moves in a line -/

/-- In a line the ticket may go away or to the end; nobody else moves. -/
inductive Moves (ticket : Nat) (line : List Nat) : List Nat → Prop
  | stays (k : Nat) : Moves ticket line (line ++ List.replicate k ticket)
  | leaves (k : Nat) : Moves ticket line (line.filter (· ≠ ticket) ++ List.replicate k ticket)

theorem Moves.refl (ticket : Nat) (line : List Nat) : Moves ticket line line := by
  simpa using @Moves.stays ticket line 0

theorem Moves.trans {l l' l'' : List Nat} (h : Moves ticket l l') (h' : Moves ticket l' l'') :
    Moves ticket l l'' := by
  cases h with
  | stays k =>
    cases h' with
    | stays k' =>
      rw [List.append_assoc, List.replicate_append_replicate]
      exact .stays _
    | leaves k' =>
      rw [List.filter_append, List.filter_replicate_of_neg (by simp), List.append_nil]
      exact .leaves _
  | leaves k =>
    cases h' with
    | stays k' =>
      rw [List.append_assoc, List.replicate_append_replicate]
      exact .leaves _
    | leaves k' =>
      rw [List.filter_append, List.filter_replicate_of_neg (by simp), List.append_nil,
        List.filter_filter]
      simp only [Bool.and_self]
      exact .leaves _

/-- What a turn under a ticket leaves alone: the configuration, how wallets are reached, which
registration is whose, and everybody else in the lines. -/
structure Onward (ticket : Nat) (s s' : Registry ε) : Prop where
  config : s'.config = s.config
  accesses : s.registrations.map (·.access) <+: s'.registrations.map (·.access)
  keys : ∀ w key, key < s.registrations.length → s'.key? w = some key → s.key? w = some key
  owned : s.Owned → s'.Owned
  lines : ∀ key, Moves ticket (s.line key) (s'.line key)

theorem length_le_of_accesses
    (h : s.registrations.map (·.access) <+: s'.registrations.map (·.access)) :
    s.registrations.length ≤ s'.registrations.length := by
  have hle := h.length_le
  rwa [List.length_map, List.length_map] at hle

/-- Where the wallets are the same only the lines are in question. -/
theorem Onward.of_wallets (hconfig : s'.config = s.config) (hwallets : s'.wallets = s.wallets)
    (haccesses : s.registrations.map (·.access) <+: s'.registrations.map (·.access))
    (hlines : ∀ key, Moves ticket (s.line key) (s'.line key)) : Onward ticket s s' := by
  have hkey : ∀ w, s'.key? w = s.key? w := fun w => congrArg (·.lookup w) hwallets
  refine ⟨hconfig, haccesses, fun w key _ h => (hkey w).symm.trans h, fun ho => ?_, hlines⟩
  refine ⟨fun w key h => ?_, fun w w' key h h' => ?_⟩
  · exact Nat.lt_of_lt_of_le (ho.registered w key ((hkey w).symm.trans h))
      (length_le_of_accesses haccesses)
  · exact ho.apart w w' key ((hkey w).symm.trans h) ((hkey w').symm.trans h')

instance (ticket : Nat) : Std.Refl (Onward (ε := ε) ticket) :=
  ⟨fun _ => .of_wallets rfl rfl (List.prefix_refl _) fun _ => .refl _ _⟩

instance (ticket : Nat) : Trans (Onward (ε := ε) ticket) (Onward ticket) (Onward ticket) where
  trans h h' := {
    config := h'.config.trans h.config
    accesses := h.accesses.trans h'.accesses
    keys := fun w key hlt hkey => h.keys w key hlt
      (h'.keys w key (Nat.lt_of_lt_of_le hlt (length_le_of_accesses h.accesses)) hkey)
    owned := fun ho => h'.owned (h.owned ho)
    lines := fun key => (h.lines key).trans (h'.lines key) }

theorem Aside.onward (h : Aside s s') : Onward ticket s s' := by
  induction h with
  | refl s => exact Std.Refl.refl s
  | engines s engines => exact .of_wallets rfl rfl (List.prefix_refl _) fun _ => .refl _ _
  | @add s w access h =>
    refine ⟨rfl, ?_, fun w' key hlt hkey => ?_, fun ho => ho.add h access, fun key => ?_⟩
    · show s.registrations.map _ <+: (s.registrations ++ [_]).map _
      rw [List.map_append]
      exact List.prefix_append _ _
    · have hkey : (insertWallet w s.registrations.length s.wallets).lookup w' = some key := hkey
      rw [lookup_insertWallet h] at hkey
      split at hkey
      · cases hkey
        omega
      · exact hkey
    · rw [line_add]
      exact .refl _ _
  | remove s w =>
    refine ⟨rfl, List.prefix_refl _, fun w' key _ hkey => ?_, fun ho => ho.forget w,
      fun _ => .refl _ _⟩
    have hlookup := (Keyed.lookup_erase w w' s.wallets).symm.trans hkey
    split at hlookup
    · cases hlookup
    · exact hlookup
  | trans _ _ ih ih' => exact Trans.trans ih ih'

theorem accesses_of_same (h : ∀ k, s'.access? k = s.access? k) :
    s.registrations.map (·.access) <+: s'.registrations.map (·.access) := by
  have heq : s'.registrations.map (·.access) = s.registrations.map (·.access) := by
    refine List.ext_getElem? fun k => ?_
    rw [List.getElem?_map, List.getElem?_map]
    exact h k
  exact ⟨[], (List.append_nil _).trans heq.symm⟩

theorem leave_onward (s : Registry ε) (ticket : Nat) : Onward ticket s (s.leave ticket) := by
  refine .of_wallets rfl rfl (accesses_of_same fun k => access?_leave k) fun key => ?_
  rw [line_leave, ← List.append_nil (List.filter _ _)]
  exact .leaves 0

theorem EngineOnly.onward (h : EngineOnly n s s') : Onward ticket s s' :=
  h.aside.onward

theorem lineUp_onward (s : Registry ε) (key ticket : Nat) :
    Onward ticket s (s.lineUp key ticket) := by
  refine .of_wallets rfl rfl (accesses_of_same fun k => access?_lineUp k) fun k => ?_
  cases ha : s.access? key with
  | none =>
    -- there is no such line
    have hnone : s.registrations[key]? = none := Option.map_eq_none_iff.mp ha
    have hsame : s.lineUp key ticket = s := by
      unfold lineUp modifyRegistration
      rw [List.modify_eq_self (List.getElem?_eq_none_iff.mp hnone)]
    rw [hsame]
    exact .refl _ _
  | some a =>
    rw [line_lineUp ha]
    by_cases hk : k = key
    · rw [if_pos hk, hk]
      exact .stays 1
    · rw [if_neg hk]
      exact .refl _ _

theorem putUp_onward (s : Registry ε) (key ticket : Nat) (p : Accounts) :
    Onward ticket s (s.putUp key p) := by
  refine .of_wallets rfl rfl (accesses_of_same fun k => access?_putUp p k) fun k => ?_
  rw [line_putUp]
  exact .refl _ _

variable [Engine ε]

/-- What happens beside refreshes comes to acts of a company. -/
theorem Aside.acts (h : Aside s s') : ∃ acts : List (Company.Act ε), ∀ c : Company ε,
    c.registry = s → c.after acts = { c with registry := s' } := by
  induction h with
  | refl s => exact ⟨[], fun c hc => by subst hc; rfl⟩
  | engines s engines => exact ⟨[.engines engines], fun c hc => by subst hc; rfl⟩
  | @add s w access h =>
    refine ⟨[.register w access], fun c hc => ?_⟩
    subst hc
    show (if (c.registry.key? w).isSome then c else _) = _
    rw [h]
    rfl
  | remove s w => exact ⟨[.remove w], fun c hc => by subst hc; rfl⟩
  | trans _ _ ih ih' =>
    obtain ⟨acts, hacts⟩ := ih
    obtain ⟨acts', hacts'⟩ := ih'
    exact ⟨acts ++ acts', fun c hc => by rw [Company.after_append, hacts c hc, hacts' _ rfl]⟩

theorem refresh_onward (ticket : Nat) (w : WalletId) :
    ((refresh ticket w).run : Flow Wait (Registry ε) (Outcome Accounts)).Within (fun _ => True)
      (Onward ticket) := by
  refine .of_last fun ts τ t h => ?_
  cases refresh_turn h with
  | begins _ hleft | misses _ hleft | finds _ hleft =>
    rw [hleft]
    exact Std.Refl.refl _
  | linesUp _ _ hleft =>
    rw [hleft]
    exact lineUp_onward _ _ _
  | asks _ _ he => exact he.onward
  | fails _ _ he hleft =>
    rw [hleft]
    have hasked : Onward ticket τ.found _ := he.onward
    exact Trans.trans hasked (leave_onward _ ticket)
  | @succeeds key _ p _ _ hleft =>
    rw [hleft]
    exact Trans.trans (putUp_onward τ.found key ticket p) (leave_onward _ ticket)

end Registry

/-! ## Programs that refresh -/

/-- What a program waits for after a turn, and how it goes on. -/
def Turns.left? : Turns Wait (Registry ε) α → Option (Wait × Flow Wait (Registry ε) α)
  | .done _ _ => none
  | .pause wait _ resume => some (wait, resume)

/-- A wait on the way of a program that has no refresh under way. -/
def Wait.IsAside : Wait → Prop
  | lock _ _ => False
  | _ => True

theorem Wait.OfCall.isAside {n : Nat} {wait : Wait} (h : wait.OfCall n) : wait.IsAside := by
  cases wait <;> first | exact h | trivial

variable [Engine ε]

/-- Programs of refreshes under a ticket and of turns beside them. -/
inductive Calls (ticket : Nat) : {α : Type} → Flow Wait (Registry ε) α → Prop
  | aside {α : Type} {x : Flow Wait (Registry ε) α} (h : x.Within Wait.IsAside Registry.Aside) :
      Calls ticket x
  | refresh (w : WalletId) : Calls ticket (Registry.refresh ticket w).run
  | bind {α β : Type} {x : Flow Wait (Registry ε) α} {f : α → Flow Wait (Registry ε) β}
      (hx : Calls ticket x) (hf : ∀ a, Calls ticket (f a)) : Calls ticket (x >>= f)

theorem Calls.pure {ticket : Nat} (a : α) : Calls ticket (Pure.pure a : Flow Wait (Registry ε) α) :=
  .aside (.pure a)

/-- In the lines such a program moves nobody but itself. -/
theorem Calls.onward {ticket : Nat} {x : Flow Wait (Registry ε) α} (h : Calls ticket x) :
    x.Within (fun _ => True) (Registry.Onward ticket) := by
  induction h with
  | aside h => exact h.mono (fun _ _ => trivial) fun _ _ h => h.onward
  | refresh w => exact Registry.refresh_onward ticket w
  | bind _ _ ihx ihf => exact .bind ihx ihf

/-- The operation is such a program. -/
def Registry.Op.Calls (ticket : Nat) (x : Registry.Op ε α) : Prop :=
  Purse.Calls ticket x.run

namespace Registry

namespace Op.Calls

variable {ticket : Nat} {x : Op ε α}

theorem aside (h : x.Within Wait.IsAside Aside) : Calls ticket x :=
  Purse.Calls.aside h

theorem bind {f : α → Op ε β} (hx : x.Calls ticket) (hf : ∀ a, (f a).Calls ticket) :
    Calls ticket (x >>= f) := by
  refine Purse.Calls.bind hx fun o => ?_
  cases o with
  | error e => exact .pure _
  | ok a => exact hf a

theorem conclude (o : Outcome α) : Calls ticket (conclude o : Op ε α) :=
  Purse.Calls.pure o

theorem pure (a : α) : Calls ticket (Pure.pure a : Op ε α) :=
  conclude (.ok a)

theorem attempt (hx : x.Calls ticket) : Calls ticket (attempt x) :=
  Purse.Calls.bind hx fun o => .pure (Except.ok o)

end Op.Calls

/-! ### What there is beside refreshes -/

abbrev Op.Aside (x : Op ε α) : Prop :=
  x.Within Wait.IsAside Registry.Aside

omit [Engine ε] in
theorem entry_aside (w : WalletId) : (entry w : Op ε (Nat × Registration)).Aside :=
  entry_within trivial w

omit [Engine ε] in
theorem access_aside (w : WalletId) : (access w : Op ε Access).Aside :=
  .bind (entry_aside w) fun _ => .pure _

theorem call_aside (a : Access) (c : Call) : (call a c : Op ε c.Answer).Aside :=
  Flow.Within.mono (call_within a c) (fun _ h => h.isAside) fun _ _ h => h.aside

omit [Engine ε] in
theorem look_aside (a : Access) (missing : α) (f : ε → α) : (look a missing f : Op ε α).Aside :=
  .bind .read fun _ => .pure _

omit [Engine ε] in
theorem accounts_aside (w : WalletId) : (accounts w : Op ε Accounts).Aside := by
  unfold accounts
  refine .bind (entry_aside w) fun kr => .bind (.pauseFor trivial) fun _ => .bind .read fun s => ?_
  split
  · exact .pure _
  · exact .conclude (.error _)

omit [Engine ε] in
theorem lookup_aside (w : WalletId) (number : UInt32) : (lookup w number : Op ε Account).Aside := by
  refine .bind (accounts_aside w) fun p => ?_
  split
  · exact .pure _
  · exact .conclude (.error _)

theorem numberForName_aside (w : WalletId) (name : String) :
    (numberForName w name : Op ε UInt32).Aside :=
  .bind (access_aside w) fun a => call_aside a _

theorem accountBalance_aside (a : Access) (number confirmations : UInt32) :
    (accountBalance a number confirmations : Op ε Balance).Aside :=
  .bind (call_aside a _) fun _ => .conclude _

theorem listUnspent_aside (a : Access) (number : UInt32) (name : String) :
    (listUnspent a number name : Op ε (List UnspentOutput)).Aside :=
  .bind (call_aside a _) fun _ => .conclude _

theorem unspentOutputs_aside (w : WalletId) (number : UInt32) :
    (unspentOutputs w number : Op ε (List UnspentOutput)).Aside :=
  .bind (access_aside w) fun a => .bind (call_aside a _) fun name => listUnspent_aside a number name

theorem newAccount_aside (a : Access) (name : String) :
    (newAccount a name : Op ε UInt32).Aside := by
  unfold newAccount isLocked
  refine .bind (look_aside a _ _) fun locked => ?_
  cases locked with
  | true => exact .conclude (.error _)
  | false => exact call_aside a _

theorem lock_aside (a : Access) : (lock a : Op ε Unit).Aside :=
  Flow.Within.bind (Flow.Within.mono (onEngine_within a.engine _ _) (fun _ h => h)
    fun _ _ h => h.aside) fun _ => .pure _

theorem whileUnlocked_aside (a : Access) (passphrase : String) {body : Op ε α} (h : body.Aside) :
    (whileUnlocked a passphrase body).Aside :=
  .bind (call_aside a _) fun _ => .bind (.attempt h) fun _ => .bind (lock_aside a) fun _ =>
    .conclude _

omit [Engine ε] in
theorem walletIds_aside : (walletIds : Op ε (List WalletId)).Aside :=
  .bind (.pauseFor trivial) fun _ => .bind .read fun _ => .pure _

theorem mixerAccounts_aside (a : Access) :
    (mixerAccounts a : Op ε (Option MixerAccounts)).Aside := by
  unfold mixerAccounts
  split
  · exact .pure _
  · exact look_aside a _ _

theorem mixerActive_aside (w : WalletId) : (mixerActive w : Op ε Bool).Aside := by
  unfold mixerActive isMixerActive
  refine .bind (access_aside w) fun a => ?_
  split
  · exact .pure _
  · exact call_aside a _

theorem startMixer_aside (a : Access) (passphrase : String) :
    (startMixer a passphrase : Op ε Unit).Aside := by
  unfold startMixer
  split
  · exact .conclude (.error _)
  · refine .bind (mixerAccounts_aside a) fun chosen => ?_
    cases chosen with
    | none => exact .conclude (.error _)
    | some _ => exact call_aside a _

theorem stopMixer_aside (a : Access) : (stopMixer a : Op ε Unit).Aside := by
  unfold stopMixer
  split
  · exact .conclude (.error _)
  · exact call_aside a _

theorem load_aside (w : WalletId) (engine : ε) : (load w engine : Op ε Nat).Aside := by
  refine .bind (.pauseFor trivial) fun _ => .once fun s => ?_
  cases h : s.key? w with
  | some key => exact ⟨_, s, rfl, Std.Refl.refl s⟩
  | none => exact ⟨_, _, rfl, Trans.trans (Aside.engines s _) (Aside.add _ h)⟩

omit [Engine ε] in
theorem share_aside (w other : WalletId) : (share w other : Op ε Unit).Aside := by
  refine .bind (access_aside other) fun a => .bind (.pauseFor trivial) fun _ => .once fun s => ?_
  cases h : s.key? w with
  | some key => exact ⟨_, s, rfl, Std.Refl.refl s⟩
  | none => exact ⟨_, _, rfl, .add a h⟩

omit [Engine ε] in
theorem remove_aside (w : WalletId) : (remove w : Op ε Unit).Aside := by
  refine .bind (.pauseFor trivial) fun _ => .once fun s => ?_
  cases h : s.key? w with
  | none => exact ⟨_, s, rfl, Std.Refl.refl s⟩
  | some key => exact ⟨_, _, rfl, .remove s w⟩

/-! ### What there is of refreshes -/

variable {ticket : Nat}

theorem accountsOrRefresh_calls (w : WalletId) :
    (accountsOrRefresh ticket w : Op ε Accounts).Calls ticket := by
  refine .bind (.attempt (.aside (accounts_aside w))) fun o => ?_
  split
  · exact .pure _
  · split
    · exact .refresh w
    · exact .conclude (.error _)

theorem walletBalance_calls (w : WalletId) :
    (walletBalance ticket w : Op ε WalletBalance).Calls ticket :=
  .bind (accountsOrRefresh_calls w) fun _ => .pure _

theorem totalForWallet_calls (w : WalletId) : (totalForWallet ticket w : Op ε Nat).Calls ticket :=
  .bind (walletBalance_calls w) fun _ => .pure _

theorem totalAcross_calls (ws : List WalletId) :
    (totalAcross ticket ws : Op ε Nat).Calls ticket := by
  induction ws with
  | nil => exact .pure 0
  | cons w rest ih => exact .bind (totalForWallet_calls w) fun _ => .bind ih fun _ => .pure _

theorem addTotals_calls (sums : List (Asset × Nat)) (ws : List WalletId) :
    (addTotals ticket sums ws : Op ε (List (Asset × Nat))).Calls ticket := by
  induction ws generalizing sums with
  | nil => exact .pure sums
  | cons w rest ih =>
    exact .bind (.aside (access_aside w)) fun _ => .bind (totalForWallet_calls w) fun _ => ih _

theorem mixingBalances_calls (w : WalletId) :
    (mixingBalances ticket w : Op ε MixingBalances).Calls ticket := by
  refine .bind (.aside (access_aside w)) fun a => .bind (.aside (mixerAccounts_aside a)) fun m => ?_
  split
  · exact .conclude (.error _)
  · exact .bind (accountsOrRefresh_calls w) fun _ => .pure _

end Registry

theorem Selection.fetchGroup_aside (w : WalletId) (a : Account) :
    (fetchGroup w a : Registry.Op ε Group).Aside :=
  .bind (Registry.unspentOutputs_aside w _) fun _ => .pure _

theorem Selection.fetch_calls (ticket : Nat) (s : Selection) :
    Calls ticket (fetch ticket s : Flow Wait (Registry ε) (Outcome Unit × Selection)) := by
  have hgroups : (fetchGroups ticket s.wallet : Registry.Op ε (Sizing × List Group)).Calls ticket :=
    .bind (.aside (Registry.access_aside _)) fun a => .bind (.refresh s.wallet) fun snapshot =>
      .bind (.aside (.mapM (fetchGroup_aside _) _)) fun groups =>
        .bind (.aside (.bind .read fun _ => .pure _)) fun _ => .pure _
  refine .bind hgroups fun o => ?_
  split <;> exact .pure _

theorem Relay.refreshEvents_calls (ticket : Nat) (w : WalletId) (reason : RefreshReason) :
    Calls ticket (refreshEvents ticket w reason : Flow Wait (Registry ε) (List ViewEvent)) := by
  refine .bind (.refresh w) fun o => ?_
  split
  · exact .pure _
  · cases reason with
    | transaction | resync => exact .pure _
    | mixer =>
      refine .bind (.aside (Registry.mixerActive_aside w)) fun o => ?_
      split <;> exact .pure _

/-! ### All of it -/

/-- Whatever is asked of a registry: to load wallets and to remove them, to read, refresh and
change their accounts, to add balances up, to fetch a selection, and to tell the views of a
wallet's news. -/
inductive Request (ε : Type) : Type → Type
  | load (w : WalletId) (engine : ε) : Request ε (Outcome Nat)
  | share (w other : WalletId) : Request ε (Outcome Unit)
  | remove (w : WalletId) : Request ε (Outcome Unit)
  | walletIds : Request ε (Outcome (List WalletId))
  | refresh (w : WalletId) : Request ε (Outcome Accounts)
  | accounts (w : WalletId) : Request ε (Outcome Accounts)
  | accountsOrRefresh (w : WalletId) : Request ε (Outcome Accounts)
  | lookup (w : WalletId) (number : UInt32) : Request ε (Outcome Account)
  | lookupByName (w : WalletId) (name : String) : Request ε (Outcome Account)
  | numberForName (w : WalletId) (name : String) : Request ε (Outcome UInt32)
  | hasAccount (w : WalletId) (name : String) : Request ε (Outcome Bool)
  | accountName (w : WalletId) (number : UInt32) : Request ε (Outcome String)
  | accountPath (w : WalletId) (number : UInt32) : Request ε (Outcome String)
  | accountBalance (a : Access) (number confirmations : UInt32) : Request ε (Outcome Balance)
  | spendableForAccount (w : WalletId) (number : UInt32) : Request ε (Outcome Amount)
  | listUnspent (a : Access) (number : UInt32) (name : String) :
      Request ε (Outcome (List UnspentOutput))
  | unspentOutputs (w : WalletId) (number : UInt32) : Request ε (Outcome (List UnspentOutput))
  | renameAccount (w : WalletId) (number : UInt32) (name : String) : Request ε (Outcome Unit)
  | nextAccount (w : WalletId) (name : String) : Request ε (Outcome UInt32)
  | createAccount (w : WalletId) (name passphrase : String) : Request ε (Outcome UInt32)
  | isLocked (a : Access) : Request ε (Outcome Bool)
  | unlock (a : Access) (passphrase : String) : Request ε (Outcome Unit)
  | lock (a : Access) : Request ε (Outcome Unit)
  | mixerAccounts (a : Access) : Request ε (Outcome (Option MixerAccounts))
  | mixerActive (w : WalletId) : Request ε (Outcome Bool)
  | startMixer (a : Access) (passphrase : String) : Request ε (Outcome Unit)
  | stopMixer (a : Access) : Request ε (Outcome Unit)
  | walletBalance (w : WalletId) : Request ε (Outcome WalletBalance)
  | totalForWallet (w : WalletId) : Request ε (Outcome Nat)
  | spendableForWallet (w : WalletId) : Request ε (Outcome Nat)
  | immatureForWallet (w : WalletId) : Request ε (Outcome Nat)
  | totalAcross (ws : List WalletId) : Request ε (Outcome Nat)
  | totalsByAsset : Request ε (Outcome (List (Asset × Nat)))
  | mixingBalances (w : WalletId) : Request ε (Outcome MixingBalances)
  | fetch (s : Selection) : Request ε (Outcome Unit × Selection)
  | refreshEvents (w : WalletId) (reason : RefreshReason) : Request ε (List ViewEvent)

namespace Request

/-- How it is done under a ticket. -/
def program (ticket : Nat) : Request ε α → Flow Wait (Registry ε) α
  | load w engine => (Registry.load w engine).run
  | share w other => (Registry.share w other).run
  | remove w => (Registry.remove w).run
  | walletIds => Registry.walletIds.run
  | refresh w => (Registry.refresh ticket w).run
  | accounts w => (Registry.accounts w).run
  | accountsOrRefresh w => (Registry.accountsOrRefresh ticket w).run
  | lookup w number => (Registry.lookup w number).run
  | lookupByName w name => (Registry.lookupByName w name).run
  | numberForName w name => (Registry.numberForName w name).run
  | hasAccount w name => (Registry.hasAccount w name).run
  | accountName w number => (Registry.accountName w number).run
  | accountPath w number => (Registry.accountPath w number).run
  | accountBalance a number confirmations => (Registry.accountBalance a number confirmations).run
  | spendableForAccount w number => (Registry.spendableForAccount w number).run
  | listUnspent a number name => (Registry.listUnspent a number name).run
  | unspentOutputs w number => (Registry.unspentOutputs w number).run
  | renameAccount w number name => (Registry.renameAccount w number name).run
  | nextAccount w name => (Registry.nextAccount w name).run
  | createAccount w name passphrase => (Registry.createAccount w name passphrase).run
  | isLocked a => (Registry.isLocked a).run
  | unlock a passphrase => (Registry.unlock a passphrase).run
  | lock a => (Registry.lock a).run
  | mixerAccounts a => (Registry.mixerAccounts a).run
  | mixerActive w => (Registry.mixerActive w).run
  | startMixer a passphrase => (Registry.startMixer a passphrase).run
  | stopMixer a => (Registry.stopMixer a).run
  | walletBalance w => (Registry.walletBalance ticket w).run
  | totalForWallet w => (Registry.totalForWallet ticket w).run
  | spendableForWallet w => (Registry.spendableForWallet ticket w).run
  | immatureForWallet w => (Registry.immatureForWallet ticket w).run
  | totalAcross ws => (Registry.totalAcross ticket ws).run
  | totalsByAsset => (Registry.totalsByAsset ticket).run
  | mixingBalances w => (Registry.mixingBalances ticket w).run
  | fetch s => Selection.fetch ticket s
  | refreshEvents w reason => Relay.refreshEvents ticket w reason

open Registry in
/-- Whatever is asked of a registry is done by refreshes under the ticket and by turns beside
them. -/
theorem calls (ticket : Nat) (r : Request ε α) : Calls ticket (r.program ticket) := by
  cases r with
  | load w engine => exact .aside (load_aside w engine)
  | share w other => exact .aside (share_aside w other)
  | remove w => exact .aside (remove_aside w)
  | walletIds => exact .aside walletIds_aside
  | refresh w => exact .refresh w
  | accounts w => exact .aside (accounts_aside w)
  | accountsOrRefresh w => exact accountsOrRefresh_calls w
  | lookup w number => exact .aside (lookup_aside w number)
  | lookupByName w name =>
    exact .aside (Op.Within.bind (numberForName_aside w name) fun number => lookup_aside w number)
  | numberForName w name => exact .aside (numberForName_aside w name)
  | hasAccount w name =>
    exact .aside (Op.Within.bind (.attempt (numberForName_aside w name)) fun _ => .pure _)
  | accountName w number | renameAccount w number name =>
    exact .aside (Op.Within.bind (access_aside w) fun a => call_aside a _)
  | accountPath w number => exact .aside (Op.Within.bind (access_aside w) fun _ => .pure _)
  | accountBalance a number confirmations =>
    exact .aside (accountBalance_aside a number confirmations)
  | spendableForAccount w number =>
    exact .aside (Op.Within.bind (access_aside w) fun a => .bind .read fun _ =>
      .bind (accountBalance_aside a number _) fun _ => .pure _)
  | listUnspent a number name => exact .aside (listUnspent_aside a number name)
  | unspentOutputs w number => exact .aside (unspentOutputs_aside w number)
  | nextAccount w name =>
    exact .aside (Op.Within.bind (access_aside w) fun a => newAccount_aside a name)
  | createAccount w name passphrase =>
    exact .aside (Op.Within.bind (access_aside w) fun a =>
      whileUnlocked_aside a passphrase (newAccount_aside a name))
  | isLocked a => exact .aside (look_aside a _ _)
  | unlock a passphrase => exact .aside (call_aside a _)
  | lock a => exact .aside (lock_aside a)
  | mixerAccounts a => exact .aside (mixerAccounts_aside a)
  | mixerActive w => exact .aside (mixerActive_aside w)
  | startMixer a passphrase => exact .aside (startMixer_aside a passphrase)
  | stopMixer a => exact .aside (stopMixer_aside a)
  | walletBalance w => exact walletBalance_calls w
  | totalForWallet w => exact totalForWallet_calls w
  | spendableForWallet w | immatureForWallet w =>
    exact Op.Calls.bind (walletBalance_calls w) fun _ => .pure _
  | totalAcross ws => exact totalAcross_calls ws
  | totalsByAsset => exact Op.Calls.bind (.aside walletIds_aside) fun ws => addTotals_calls [] ws
  | mixingBalances w => exact mixingBalances_calls w
  | fetch s => exact Selection.fetch_calls ticket s
  | refreshEvents w reason => exact Relay.refreshEvents_calls ticket w reason

end Request

/-! ## One program -/

namespace Company

variable {c c' : Company ε} {ticket : Nat}

omit [Engine ε] in
/-- Nobody has the ticket at the moment. -/
def Free (c : Company ε) (ticket : Nat) : Prop :=
  ∀ (j : Nat) (f : Refresh ε), c.refreshes[j]? = some f → f.isUnderWay → f.ticket ≠ ticket

omit [Engine ε] in
/-- The refreshes under the ticket are the same. -/
def SameUnder (ticket : Nat) (c c' : Company ε) : Prop :=
  ∀ (j : Nat) (f : Refresh ε), f.ticket = ticket →
    (c'.refreshes[j]? = some f ↔ c.refreshes[j]? = some f)

/-- Where a program stands that waits: it is beside refreshes, or what it has left of a refresh
is what the company has left of it. -/
inductive Stands (c : Company ε) (ticket : Nat) (wait : Wait) : Flow Wait (Registry ε) α → Prop
  | aside {x : Flow Wait (Registry ε) α} (hfree : c.Free ticket) (hwait : wait.IsAside)
      (h : Calls ticket x) : Stands c ticket wait x
  | refreshes {i : Nat} {w : WalletId} {resume : Flow Wait (Registry ε) (Outcome Accounts)}
      {f : Outcome Accounts → Flow Wait (Registry ε) α}
      (hf : c.refreshes[i]? = some ⟨ticket, w, .waits wait resume⟩) (h : ∀ o, Calls ticket (f o)) :
      Stands c ticket wait (resume >>= f)

/-- After a turn of a program the company has the program's registry, and the program stands
somewhere or has ended; nobody else has had a turn. -/
structure Follows (c c' : Company ε) (ticket : Nat) (t : Turns Wait (Registry ε) α) : Prop where
  registry : c'.registry = t.state
  done : ∀ a s, t = .done a s → c'.Free ticket
  pause : ∀ wait s (x : Flow Wait (Registry ε) α), t = .pause wait s x → Stands c' ticket wait x
  others : ∀ other, other ≠ ticket → SameUnder other c c'

theorem Stands.bind {wait : Wait} {x : Flow Wait (Registry ε) α} {f : α → Flow Wait (Registry ε) β}
    (h : Stands c ticket wait x) (hf : ∀ a, Calls ticket (f a)) :
    Stands c ticket wait (x >>= f) := by
  cases h with
  | aside hfree hwait h => exact .aside hfree hwait (.bind h hf)
  | refreshes hi h =>
    rw [bind_assoc]
    exact .refreshes hi fun o => .bind (h o) hf

omit [Engine ε] in
theorem Free.of_same (hfree : c.Free ticket) (hsame : SameUnder ticket c c') : c'.Free ticket :=
  fun j f hf hway ht => hfree j f ((hsame j f ht).mp hf) hway ht

theorem Stands.of_same {wait : Wait} {x : Flow Wait (Registry ε) α}
    (h : Stands c ticket wait x) (hsame : SameUnder ticket c c') : Stands c' ticket wait x := by
  cases h with
  | aside hfree hwait h => exact .aside (hfree.of_same hsame) hwait h
  | refreshes hi h => exact .refreshes ((hsame _ _ rfl).mpr hi) h

omit [Engine ε] in
theorem SameUnder.trans {c'' : Company ε} (h : SameUnder ticket c c')
    (h' : SameUnder ticket c' c'') : SameUnder ticket c c'' :=
  fun j f hf => (h' j f hf).trans (h j f hf)

omit [Engine ε] in
/-- A refresh that is begun leaves all other tickets alone. -/
theorem sameUnder_begin {other : Nat} {f : Refresh ε} (hother : other ≠ f.ticket) :
    SameUnder other c { c with refreshes := c.refreshes ++ [f] } := by
  intro j g hg
  constructor
  · intro h
    rcases getElem?_concat h with h | ⟨-, rfl⟩
    · exact h
    · exact absurd hg.symm hother
  · intro h
    obtain ⟨hlt, -⟩ := List.getElem?_eq_some_iff.mp h
    exact (List.getElem?_append_left hlt).trans h

omit [Engine ε] in
/-- What happens to a refresh leaves all other tickets alone. -/
theorem sameUnder_modify {i other : Nat} {f : Refresh ε} {progress : Progress ε}
    (hf : c.refreshes[i]? = some f) (hother : other ≠ f.ticket) :
    SameUnder other c (c.modify i progress) := by
  intro j g hg
  rw [getElem?_modify]
  by_cases hj : i = j
  · subst hj
    rw [hf]
    refine iff_of_false (fun h => ?_) fun h => ?_ <;> cases h
    · simp [hother.symm] at hg
    · exact hother hg.symm
  · simp only [hj, if_false, Option.map_id']

theorem perform_begin (w : WalletId) (hfree : c.Free ticket) :
    c.perform (.begin ticket w) = { c with refreshes :=
      c.refreshes ++ [⟨ticket, w, .waits .answer (Registry.refresh ticket w).run⟩] } := by
  refine if_neg fun h => ?_
  obtain ⟨f, hf, h⟩ := List.any_eq_true.mp h
  obtain ⟨j, hj⟩ := List.getElem?_of_mem hf
  rw [Bool.and_eq_true, beq_iff_eq] at h
  exact hfree j f hj h.1 h.2

theorem perform_go {i : Nat} {w : WalletId} {wait : Wait}
    {resume : Flow Wait (Registry ε) (Outcome Accounts)}
    (hf : c.refreshes[i]? = some ⟨ticket, w, .waits wait resume⟩) (hover : c.registry.isOver wait) :
    c.perform (.go i) = c.take i wait (resume c.registry) := by
  have hturn : c.turn? i = some (wait, resume c.registry) := by
    unfold turn?
    rw [hf]
    exact if_pos hover
  unfold perform
  dsimp only
  rw [hturn]

/-- The second part of a program begins in the turn in which the first part ends. -/
theorem Follows.bind {t : Turns Wait (Registry ε) α} {f : α → Flow Wait (Registry ε) β}
    (h : Follows c c' ticket t) (hf : ∀ a, Calls ticket (f a))
    (hgo : ∀ a, c'.Free ticket → ∃ acts, Follows c' (c'.after acts) ticket (f a c'.registry)) :
    ∃ acts, Follows c (c'.after acts) ticket (t.bind f) := by
  cases t with
  | pause wait s x =>
    refine ⟨[], h.registry, (fun _ _ heq => nomatch heq), fun _ _ _ heq => ?_, h.others⟩
    cases heq
    exact (h.pause _ _ _ rfl).bind hf
  | done a s =>
    obtain ⟨acts, hfollows⟩ := hgo a (h.done a s rfl)
    rw [h.registry] at hfollows
    exact ⟨acts, { hfollows with
      others := fun other hother => (h.others other hother).trans (hfollows.others other hother) }⟩

/-- A turn of a refresh, if nobody else has its ticket. -/
theorem follows_take {i : Nat} {w : WalletId} {wait : Wait}
    {resume : Flow Wait (Registry ε) (Outcome Accounts)}
    (hf : c.refreshes[i]? = some ⟨ticket, w, .waits wait resume⟩)
    (hticket : ∀ (j : Nat) (g : Refresh ε), c.refreshes[j]? = some g → g.isUnderWay →
      g.ticket = ticket → j = i) :
    Follows c (c.take i wait (resume c.registry)) ticket (resume c.registry) where
  registry := rfl
  done a s heq := by
    intro j g hg hway ht
    obtain ⟨g', hg', hticket', -, hprogress⟩ := exists_of_modify hg
    unfold Refresh.isUnderWay at hway
    by_cases hj : i = j
    · rw [hprogress, if_pos hj, heq] at hway
      cases hway
    · rw [hprogress, if_neg hj] at hway
      exact hj (hticket j g' hg' hway (hticket'.trans ht)).symm
  pause wait' s x heq := by
    have hf' : (c.take i wait (resume c.registry)).refreshes[i]? =
        some ⟨ticket, w, .waits wait' x⟩ := by
      refine (getElem?_modify c i _ i).trans ?_
      rw [hf, heq]
      simp [Progress.after]
    have hx : Stands (c.take i wait (resume c.registry)) ticket wait' (x >>= pure) :=
      .refreshes hf' fun o => .pure o
    rwa [bind_pure] at hx
  others other hother := sameUnder_modify hf hother

/-- A program that has no refresh under way goes on by some acts of the company. -/
theorem follows_of_free {x : Flow Wait (Registry ε) α} (h : Calls ticket x) (hfree : c.Free ticket) :
    ∃ acts, Follows c (c.after acts) ticket (x c.registry) := by
  induction h generalizing c with
  | @aside _ x h =>
    obtain ⟨hturns, hwait⟩ := h _ _ (.first .answer c.registry)
    obtain ⟨acts, hacts⟩ := Registry.Aside.acts (hturns _ (List.mem_singleton_self _))
    refine ⟨acts, ?_⟩
    rw [hacts c rfl]
    exact {
      registry := rfl
      done := fun _ _ _ => hfree
      pause := fun wait s r hr => .aside hfree (hwait wait s r hr) (.aside (h.resume hr))
      others := fun _ _ _ _ _ => Iff.rfl }
  | refresh w =>
    refine ⟨[.begin ticket w, .go c.refreshes.length], ?_⟩
    show Follows c ((c.perform (.begin ticket w)).perform (.go c.refreshes.length)) _ _
    rw [perform_begin w hfree, perform_go List.getElem?_concat_length rfl]
    refine { follows_take List.getElem?_concat_length ?_ with others := ?_ }
    · intro j g hg hway ht
      rcases getElem?_concat hg with hg | ⟨rfl, -⟩
      · exact absurd ht (hfree j g hg hway)
      · rfl
    · exact fun other hother => (sameUnder_begin hother).trans
        (sameUnder_modify List.getElem?_concat_length hother)
  | bind _ hf ihx ihf =>
    obtain ⟨acts, hfollows⟩ := ihx hfree
    obtain ⟨acts', hfollows'⟩ := hfollows.bind hf fun a hfree' => ihf a hfree'
    exact ⟨acts ++ acts', after_append c acts acts' ▸ hfollows'⟩

/-- A program that need not wait goes on by some acts of the company. -/
theorem Stands.follows {wait : Wait} {x : Flow Wait (Registry ε) α} (h : Stands c ticket wait x)
    (hk : c.Kept) (hover : c.registry.isOver wait) :
    ∃ acts, Follows c (c.after acts) ticket (x c.registry) := by
  cases h with
  | aside hfree _ h => exact follows_of_free h hfree
  | @refreshes i w resume f hf h =>
    have hfollows := follows_take hf fun j g hg hway ht => hk.apart j i g _ hg hf hway rfl ht
    rw [← perform_go hf hover] at hfollows
    obtain ⟨acts, hfollows⟩ := hfollows.bind h fun o hfree => follows_of_free (h o) hfree
    exact ⟨.go i :: acts, hfollows⟩

/-- A ticket that nobody has is in no line. -/
theorem Kept.leave_of_free (hk : c.Kept) (hfree : c.Free ticket) :
    c.registry.leave ticket = c.registry := by
  have hnone : ∀ key, ticket ∉ c.registry.line key := by
    intro key hmem
    obtain ⟨j, f, _, hf, hway, hticket, -⟩ := (hk.queued.mem key ticket).mp hmem
    exact hfree j f hf hway hticket
  have hlines : c.registry.registrations.map
      (fun r => { r with line := r.line.filter (· ≠ ticket) }) = c.registry.registrations := by
    refine (List.map_congr_left fun r hr => ?_).trans (List.map_id _)
    obtain ⟨key, hkey⟩ := List.getElem?_of_mem hr
    have hmem := hnone key
    unfold Registry.line at hmem
    rw [hkey] at hmem
    have hfilter : r.line.filter (· ≠ ticket) = r.line :=
      List.filter_eq_self.mpr fun t ht => decide_eq_true fun heq => hmem (heq ▸ ht)
    rw [hfilter]
    rfl
  unfold Registry.leave
  rw [hlines]

/-- A program is given up by at most one act of the company. -/
theorem Stands.givenUp {wait : Wait} {x : Flow Wait (Registry ε) α} (h : Stands c ticket wait x)
    (hk : c.Kept) (a : α) :
    ∃ acts, Follows c (c.after acts) ticket (.done a (c.registry.leave ticket) : Turns Wait _ α) := by
  cases h with
  | aside hfree _ =>
    refine ⟨[], ?_⟩
    rw [hk.leave_of_free hfree]
    exact ⟨rfl, fun _ _ _ => hfree, (fun _ _ _ heq => nomatch heq), fun _ _ _ _ _ => Iff.rfl⟩
  | @refreshes i w resume f hf h =>
    have hgiven : c.perform (.giveUp i) =
        { c.modify i .abandoned with registry := c.registry.leave ticket } := by
      unfold perform
      dsimp only
      rw [hf]
      rfl
    refine ⟨[.giveUp i], ?_⟩
    show Follows c (c.perform (.giveUp i)) ticket _
    rw [hgiven]
    refine ⟨rfl, fun _ _ _ => ?_, (fun _ _ _ heq => nomatch heq), fun other hother => ?_⟩
    · intro j g hg hway hticket
      obtain ⟨g', hg', hticket', -, hprogress⟩ := exists_of_modify hg
      obtain ⟨hway', hj⟩ := isUnderWay_of_abandoned hway hprogress
      exact hj (hk.apart j i g' _ hg' hf hway' rfl (hticket'.trans hticket))
    · exact sameUnder_modify hf hother

end Company

end Purse
