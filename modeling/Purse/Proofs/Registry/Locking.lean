import Purse.Proofs.Registry.Errands

/-!
# The lock of a wallet

New accounts are asked for only while the engine says that it is unlocked, and whoever
unlocks a wallet for new accounts locks it again, at the very end and whatever came in
between (`lock_discipline`).

This holds of any engine. Of an engine in memory more is true, whatever monitors stand
before it (`HeldInMemory`): a call that is refused changes nothing but its counts
(`InMemoryEngine.ask_refused`), so that a passphrase that is refused leaves the lock as it
was, and an account that is refused leaves the accounts.
-/

namespace Purse

variable {ε : Type} [Engine ε]

namespace Registry

/-! ## What the lock demands -/

/-- What the lock demands of a visit to a wallet of the scope, of whatever kind the engine is. -/
structure Visit.Disciplined (scope : Option KeyScope) (v : Visit ε) : Prop where
  deals : Engine.Deals v.found v.dealings v.left
  /-- If the wallet could be unlocked for new accounts, nothing else is done until the
  first failure but to ask for them, and then the wallet is locked once. -/
  relocked : ∀ passphrase names, v.errand.creation? = some (passphrase, names) →
    (Engine.ask (.unlock passphrase) v.found).1 = .ok () →
    ∃ ds e, Making scope names (Engine.ask (.unlock passphrase) v.found).2 ds v.outcome e ∧
      ds.map (·.call) <+: names.map (.nextAccount scope) ∧
      v.dealings = .asked v.found (.unlock passphrase) :: (ds ++ [.locked e]) ∧
      v.left = Engine.lock e
  /-- If it could not be unlocked, this is all that has happened. -/
  refused : ∀ passphrase names f, v.errand.creation? = some (passphrase, names) →
    (Engine.ask (.unlock passphrase) v.found).1 = .error f →
    v.outcome = .error (.ofEngine f) ∧ v.dealings = [.asked v.found (.unlock passphrase)]

theorem Visit.Goes.disciplined {scope : Option KeyScope} {v : Visit ε} (h : v.Goes scope) :
    v.Disciplined scope := by
  obtain ⟨x, e, ds, o, e'⟩ := v
  have hgoes : x.Goes scope e ds o e' := h
  refine ⟨hgoes.deals, ?_, ?_⟩
  · intro passphrase names hx hreply
    rcases hgoes.creation hx with ⟨f, hreply', -⟩ | ⟨ds₁, e₁, -, hmaking, rfl, rfl⟩
    · cases hreply'.symm.trans hreply
    · exact ⟨ds₁, e₁, hmaking, hmaking.calls_prefix, rfl, rfl⟩
  · intro passphrase names f hx hreply
    rcases hgoes.creation hx with ⟨f', hreply', rfl, rfl, -⟩ | ⟨_, _, hreply', -⟩
    · cases hreply'.symm.trans hreply
      exact ⟨rfl, rfl⟩
    · cases hreply'.symm.trans hreply

end Registry

/-! ## Engines held in memory -/

namespace InMemoryEngine

variable {c : Call} {e : InMemoryEngine} {f : EngineError}

/-- That a call comes in can be seen in the counts only. -/
theorem countCall_eq (c : Call) (e : InMemoryEngine) :
    ∃ counts, e.countCall c = { e with counts } := by
  unfold countCall
  dsimp only
  split <;> exact ⟨_, rfl⟩

theorem newAccount_refused {name : String} (h : (e.newAccount name).1 = .error f) :
    (e.newAccount name).2 = e := by
  unfold newAccount at h ⊢
  split
  · rfl
  · split
    · rfl
    · simp_all

theorem rename_refused {number : UInt32} {name : String}
    (h : (e.rename number name).1 = .error f) : (e.rename number name).2 = e := by
  unfold rename at h ⊢
  cases ha : e.account? number with
  | none => rfl
  | some account =>
    rw [ha] at h
    cases h

theorem withPassphrase_refused {passphrase : String} {change : InMemoryEngine → InMemoryEngine}
    (h : (e.withPassphrase passphrase change).1 = .error f) :
    (e.withPassphrase passphrase change).2 = e := by
  unfold withPassphrase at h ⊢
  by_cases hp : passphrase = e.passphrase
  · rw [if_pos hp] at h
    cases h
  · rw [if_neg hp]

theorem answer_refused (h : (e.answer c).1 = .error f) : (e.answer c).2 = e := by
  cases c with
  | accounts => cases h
  | balance => rfl
  | unspent => rfl
  | nextAccount => exact newAccount_refused h
  | renameAccount => exact rename_refused h
  | accountName =>
    unfold answer
    dsimp only
    split <;> rfl
  | accountNumber =>
    unfold answer
    dsimp only
    split <;> rfl
  | unlock => exact withPassphrase_refused h
  | lock => cases h
  | mixerActive => cases h
  | startMixer => exact withPassphrase_refused h
  | stopMixer => cases h

/-- A call that is refused changes nothing but the counts. -/
theorem ask_refused (h : (Engine.ask c e).1 = .error f) :
    ∃ counts, (Engine.ask c e).2 = { e with counts } := by
  obtain ⟨counts, hcounted⟩ := countCall_eq c e
  have hask : Engine.ask c e = (e.countCall c).answer c := rfl
  rw [hask] at h ⊢
  exact ⟨counts, (answer_refused h).trans hcounted⟩

theorem accounts_ask_unlock (passphrase : String) (e : InMemoryEngine) :
    (Engine.ask (.unlock passphrase) e).2.accounts = e.accounts := by
  obtain ⟨counts, hcounted⟩ := countCall_eq (.unlock passphrase) e
  have hask : Engine.ask (.unlock passphrase) e =
      (e.countCall (.unlock passphrase)).answer (.unlock passphrase) := rfl
  rw [hask, hcounted]
  unfold answer withPassphrase
  dsimp only
  split <;> rfl

end InMemoryEngine

/-- The engine keeps one in memory, to which all its calls go that it does not refuse
itself. -/
structure HeldInMemory (inner : ε → InMemoryEngine) : Prop where
  isLocked : ∀ e, Engine.isLocked e = (inner e).locked
  lock : ∀ e, inner (Engine.lock e) = (inner e).lock
  receive : ∀ c e, inner (Engine.receive c e).2 = inner e
  enter : ∀ c e, inner (Engine.enter c e).2 = (inner e).countCall c
  answer : ∀ c e, ((Engine.answer c e).1, inner (Engine.answer c e).2) = (inner e).answer c

theorem heldInMemory_self : HeldInMemory (id : InMemoryEngine → InMemoryEngine) where
  isLocked _ := rfl
  lock _ := rfl
  receive _ _ := rfl
  enter _ _ := rfl
  answer _ _ := rfl

namespace HeldInMemory

variable {inner : ε → InMemoryEngine}

theorem monitored (h : HeldInMemory inner) :
    HeldInMemory fun m : Monitored ε => inner m.engine where
  isLocked m := h.isLocked m.engine
  lock m := h.lock m.engine
  receive c m := by
    show inner (Monitored.receive c m).2.engine = _
    unfold Monitored.receive
    dsimp only
    split <;> rfl
  enter c m := h.enter c m.engine
  answer c m := h.answer c m.engine

/-- A call is refused on the way or answered by the engine in memory. -/
theorem ask (h : HeldInMemory inner) (c : Call) (e : ε) :
    ((∃ f, (Engine.ask c e).1 = .error f) ∧ inner (Engine.ask c e).2 = inner e) ∨
      ((Engine.ask c e).1, inner (Engine.ask c e).2) = Engine.ask c (inner e) := by
  have hreceive := h.receive c e
  unfold Engine.ask
  cases hr : Engine.receive c e with
  | mk refusal e₁ =>
    rw [hr] at hreceive
    cases refusal with
    | some refusal => exact Or.inl ⟨⟨refusal, rfl⟩, hreceive⟩
    | none =>
      have hanswer := h.answer c (Engine.enter c e₁).2
      rw [h.enter, hreceive] at hanswer
      exact Or.inr hanswer

/-- A call that is refused changes nothing but the counts of the engine in memory. -/
theorem ask_refused (h : HeldInMemory inner) {c : Call} {e : ε} {f : EngineError}
    (hreply : (Engine.ask c e).1 = .error f) :
    ∃ counts, inner (Engine.ask c e).2 = { inner e with counts } := by
  rcases h.ask c e with ⟨-, hsame⟩ | hasked
  · exact ⟨(inner e).counts, hsame⟩
  · have hreply' : (Engine.ask c e).1 = (Engine.ask c (inner e)).1 := congrArg Prod.fst hasked
    have hleft : inner (Engine.ask c e).2 = (Engine.ask c (inner e)).2 := congrArg Prod.snd hasked
    rw [hleft]
    exact InMemoryEngine.ask_refused (hreply'.symm.trans hreply)

theorem accounts_ask_unlock (h : HeldInMemory inner) (passphrase : String) (e : ε) :
    (inner (Engine.ask (.unlock passphrase) e).2).accounts = (inner e).accounts := by
  rcases h.ask (.unlock passphrase) e with ⟨-, hsame⟩ | hasked
  · rw [hsame]
  · rw [← InMemoryEngine.accounts_ask_unlock passphrase (inner e), ← hasked]

/-- No account is made by asking for one in vain. -/
theorem accounts_making (h : HeldInMemory inner) {scope : Option KeyScope} {e e' : ε}
    {name : String} {f : Failure} {ds : List (Dealing ε)}
    (hmaking : Making scope [name] e ds (.error f) e') :
    (inner e').accounts = (inner e).accounts := by
  generalize ho : (Except.error f : Outcome (List UInt32)) = o at hmaking
  cases hmaking with
  | barred => rfl
  | refused _ _ _ hreply =>
    obtain ⟨counts, hleft⟩ := h.ask_refused hreply
    rw [hleft]
  | made _ _ hrest =>
    -- nothing is left to fail
    cases hrest
    cases ho

end HeldInMemory

namespace Registry

/-- What becomes of an engine in memory on a visit. -/
structure Visit.InMemory (inner : ε → InMemoryEngine) (v : Visit ε) : Prop where
  /-- If it could be unlocked for new accounts, it is locked in the end. -/
  relocked : ∀ passphrase names, v.errand.creation? = some (passphrase, names) →
    (Engine.ask (.unlock passphrase) v.found).1 = .ok () → Engine.isLocked v.left = true
  /-- If it could not, it is as locked as it was. -/
  refused : ∀ passphrase names f, v.errand.creation? = some (passphrase, names) →
    (Engine.ask (.unlock passphrase) v.found).1 = .error f →
    Engine.isLocked v.left = Engine.isLocked v.found
  /-- Who asks for a single account in vain leaves the accounts that there were. -/
  accounts : ∀ name f, (v.errand = .next name ∨ ∃ passphrase, v.errand = .create name passphrase) →
    v.outcome = .error f → (inner v.left).accounts = (inner v.found).accounts

theorem Visit.Goes.inMemory {scope : Option KeyScope} {v : Visit ε} (h : v.Goes scope)
    {inner : ε → InMemoryEngine} (hinner : HeldInMemory inner) : v.InMemory inner := by
  obtain ⟨x, e, ds, o, e'⟩ := v
  have hgoes : x.Goes scope e ds o e' := h
  refine ⟨?_, ?_, ?_⟩
  · intro passphrase names hx hreply
    rcases hgoes.creation hx with ⟨f, hreply', -⟩ | ⟨_, e₁, -, -, -, rfl⟩
    · cases hreply'.symm.trans hreply
    · show Engine.isLocked (Engine.lock e₁) = true
      rw [hinner.isLocked, hinner.lock]
      rfl
  · intro passphrase names f hx hreply
    rcases hgoes.creation hx with ⟨f', hreply', -, -, rfl⟩ | ⟨_, _, hreply', -⟩
    · obtain ⟨counts, hleft⟩ := hinner.ask_refused hreply'
      show Engine.isLocked (Engine.ask (.unlock passphrase) e).2 = Engine.isLocked e
      rw [hinner.isLocked, hinner.isLocked, hleft]
    · cases hreply'.symm.trans hreply
  · intro name f hx ho
    have ho : o = .error f := ho
    subst ho
    rcases hx with hx | ⟨passphrase, hx⟩
    · have hx : x = .next name := hx
      subst hx
      exact hinner.accounts_making hgoes.making
    · have hx : x = .create name passphrase := hx
      subst hx
      rcases hgoes.creation rfl with ⟨f', hreply, -, -, rfl⟩ | ⟨_, e₁, -, hmaking, -, rfl⟩
      · obtain ⟨counts, hleft⟩ := hinner.ask_refused hreply
        show (inner (Engine.ask (.unlock passphrase) e).2).accounts = _
        rw [hleft]
      · show (inner (Engine.lock e₁)).accounts = _
        rw [hinner.lock]
        exact (hinner.accounts_making hmaking).trans (hinner.accounts_ask_unlock passphrase e)

/-! ## The whole sequence -/

variable {s : Registry ε} {w : WalletId}

/-- Whatever errands are run on a wallet, one after another: the engine is asked for
accounts only while it says that it is unlocked, and every errand keeps to what the lock
demands. -/
theorem lock_discipline (hs : s.Sound) {r : Registration} (hr : s.registration? w = some r)
    (errands : List Errand) :
    ∃ e visits e', s.engines[r.access.engine]? = some e ∧
      visits.map (·.errand) = errands ∧ Leads Visit.found Visit.left e visits e' ∧
      (inTurn w errands).exec s =
        (.ok (visits.map (·.outcome)), s.withEngine r.access.engine e') ∧
      Engine.Deals e (visits.flatMap (·.dealings)) e' ∧
      (∀ e₁ scope name, .asked e₁ (.nextAccount scope name) ∈ visits.flatMap (·.dealings) →
        Engine.isLocked e₁ = false) ∧
      ∀ v ∈ visits, v.Disciplined r.access.scope ∧
        ∀ inner, HeldInMemory inner → v.InMemory inner := by
  obtain ⟨e, he⟩ := hs.engine hr
  obtain ⟨visits, e', herrands, hleads, hgoes, hexec⟩ := inTurn_exec hr he errands
  refine ⟨e, visits, e', he, herrands, hleads, hexec, ?_, ?_, ?_⟩
  · exact hleads.flatMap fun v hv => (hgoes v hv).disciplined.deals
  · intro e₁ scope name hd
    obtain ⟨v, hv, hd⟩ := List.mem_flatMap.mp hd
    exact Errand.Goes.unlocked (hgoes v hv) hd
  · intro v hv
    exact ⟨(hgoes v hv).disciplined, fun _ hinner => (hgoes v hv).inMemory hinner⟩

/-- A wallet whose engine fails to make the third account it is asked for. -/
def failing : Registry (Monitored InMemoryEngine) where
  config := {}
  engines := [{
    engine := {
      asset := .btc
      accounts := [{ number := 0, name := "savings", balance := .units 5 5 0 }]
      blockHash := default
      blockHeight := 5 }
    faults := [(.nextAccount, ⟨.failed "disk full", 2⟩)] }]
  registrations := [{ access := ⟨0, .btc, .mainnet⟩ }]
  wallets := [(7, 0)]

theorem sound_failing : failing.Sound :=
  sound_of_nodup (by decide) (by decide) (by decide)

/-- An account is refused while the wallet is locked, for a name that is taken, when the
engine fails and under a wrong passphrase. -/
theorem lock_discipline_failing :
    failing.Sound ∧ failing.registration? 7 = some { access := ⟨0, .btc, .mainnet⟩ } ∧
    HeldInMemory (Monitored.engine : Monitored InMemoryEngine → InMemoryEngine) ∧
    ∃ visits : List (Visit (Monitored InMemoryEngine)),
      visits.map (·.errand) = [.next "a", .create "savings" "passphrase",
        .createAll ["b", "c", "d"] "passphrase", .create "e" "password"] ∧
      visits.map (·.outcome) = [.error .walletLocked,
        .error (.backend (.reported "account savings exists")),
        .error (.backend (.reported "disk full")),
        .error (.backend (.reported "invalid passphrase"))] ∧
      (visits.flatMap (·.dealings)).map (·.call) = [
        .unlock "passphrase", .nextAccount (some ⟨84, 0⟩) "savings", .lock,
        .unlock "passphrase", .nextAccount (some ⟨84, 0⟩) "b", .nextAccount (some ⟨84, 0⟩) "c", .lock,
        .unlock "password"] ∧
      ∀ v ∈ visits, v.Disciplined (some ⟨84, 0⟩) ∧ v.InMemory Monitored.engine := by
  have hheld : HeldInMemory (Monitored.engine : Monitored InMemoryEngine → InMemoryEngine) :=
    heldInMemory_self.monitored
  have hdiscipline := lock_discipline sound_failing (w := 7) rfl
    [.next "a", .create "savings" "passphrase", .createAll ["b", "c", "d"] "passphrase",
      .create "e" "password"]
  obtain ⟨e, visits, e', he, herrands, -, hexec, hdeals, -, hall⟩ := hdiscipline
  refine ⟨sound_failing, rfl, hheld, visits, herrands, ?_, ?_, fun v hv => ?_⟩
  · exact Except.ok.inj (congrArg Prod.fst hexec).symm
  · -- the calls are those in the log, which was empty
    have hlog := Monitored.log_deals hdeals
    have hempty : e.log = [] := by
      cases he
      rfl
    have hlogs := congrArg
      (fun p : _ × Registry (Monitored InMemoryEngine) => p.2.engines[0]?.map (·.log)) hexec
    rw [hempty, List.append_nil] at hlog
    have hcalls := hlog.symm.trans (Option.some.inj hlogs).symm
    exact List.reverse_inj.mp hcalls
  · exact ⟨(hall v hv).1, (hall v hv).2 _ hheld⟩

end Registry

end Purse
