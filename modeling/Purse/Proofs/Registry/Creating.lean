import Purse.Proofs.Registry.Locking

/-!
# The turns of a creation

Whoever creates an account unlocks the wallet, asks for the account and locks the wallet
again, in turns between which others may do anything. Only two of the turns matter to others:
the one in which the wallet has been unlocked and the account is asked for (`Unlocks`), and
the last one, in which the account is made or refused and the wallet is locked (`Leaves`).

Up to either of them a creation only moves on. `Approaches` counts these turns; there are at
most four and two of them, however the engine lets calls pass (`approaches_unlock`). All this
is of an engine that keeps one in memory and refuses nothing itself (`Unhindered`).
-/

namespace Purse

variable {ε : Type} [Engine ε]

/-! ## Engines that answer every call -/

/-- The engine keeps one in memory, refuses nothing itself and lets every call in. -/
structure Unhindered (inner : ε → InMemoryEngine) : Prop extends HeldInMemory inner where
  receives : ∀ (c : Call) (e : ε), (Engine.receive c e).1 = none
  admits : ∀ (c : Call) (e : ε), Engine.admits c e = true

theorem Unhindered.isOver_admission {inner : ε → InMemoryEngine} (h : Unhindered inner)
    (s : Registry ε) (n : Nat) (c : Call) : s.isOver (.admission n c) = true := by
  unfold Registry.isOver
  dsimp only
  split
  · exact h.admits c _
  · rfl

theorem unhindered_self : Unhindered (id : InMemoryEngine → InMemoryEngine) where
  toHeldInMemory := heldInMemory_self
  receives _ _ := rfl
  admits _ _ := rfl

namespace InMemoryEngine

/-- The engine has not changed but for its counts. -/
def Counted (e e' : InMemoryEngine) : Prop :=
  ∃ counts, e' = { e with counts }

theorem Counted.refl (e : InMemoryEngine) : e.Counted e :=
  ⟨e.counts, rfl⟩

theorem newAccount_locked {e : InMemoryEngine} (h : e.locked = true) (name : String) :
    e.newAccount name = (.error .locked, e) := by
  unfold newAccount
  rw [if_pos h]

theorem newAccount_unlocked {e : InMemoryEngine} {name : String} (h : e.locked = false)
    (hname : ∀ a ∈ e.accounts, a.name ≠ name) : ∃ a : StoredAccount, a.name = name ∧
      e.newAccount name = (.ok a.number, { e with accounts := e.accounts ++ [a] }) := by
  have hnamed : e.named? name = none := by
    simpa [named?, List.find?_eq_none] using hname
  have hmade : e.newAccount name = (.ok e.nextNumber, e.addAccount name) := by
    unfold newAccount
    rw [if_neg (by simp [h]), hnamed, if_neg (by simp)]
  exact ⟨⟨e.nextNumber, name, zeroBalance e.asset, []⟩, rfl, hmade⟩

end InMemoryEngine

namespace Registry

variable {α β : Type} {s : Registry ε} {n : Nat} {e : ε} {inner : ε → InMemoryEngine}

/-! ## The turns of a call -/

omit [Engine ε] in
theorem bind_of_done {x : Flow Wait (Registry ε) α} {a : α} {s s' : Registry ε}
    (h : x s = .done a s') (f : α → Flow Wait (Registry ε) β) : (x >>= f) s = f a s' :=
  congrArg (Turns.bind · f) h

omit [Engine ε] in
theorem bind_of_pause {x resume : Flow Wait (Registry ε) α} {w : Wait} {s s' : Registry ε}
    (h : x s = .pause w s' resume) (f : α → Flow Wait (Registry ε) β) :
    (x >>= f) s = .pause w s' (resume >>= f) :=
  congrArg (Turns.bind · f) h

omit [Engine ε] in
theorem get_done (s : Registry ε) :
    (get : Flow Wait (Registry ε) (Registry ε)) s = .done s s :=
  rfl

/-- The wait is over whatever others do, and it is not for an account. -/
def Idle (ε : Type) [Engine ε] (w : Wait) : Prop :=
  (∀ s : Registry ε, s.isOver w = true) ∧ 
    ∀ n scope name, w ≠ .admission n (.nextAccount scope name)

/-- After at most so many turns that change nothing but an engine's counts the program is
one with the property. -/
inductive Approaches (inner : ε → InMemoryEngine) (s : Registry ε) (n : Nat)
    (P : Flow Wait (Registry ε) α → Prop) : Nat → Flow Wait (Registry ε) α → Prop
  | now {k : Nat} {x : Flow Wait (Registry ε) α} (h : P x) : Approaches inner s n P k x
  | turn {k : Nat} {x : Flow Wait (Registry ε) α} (wait : ε → Wait) (left : ε → ε)
      (resume : ε → Flow Wait (Registry ε) α)
      (hx : ∀ e, x (s.withEngine n e) = .pause (wait e) (s.withEngine n (left e)) (resume e))
      (hwait : ∀ e, Idle ε (wait e)) (hleft : ∀ e, (inner e).Counted (inner (left e)))
      (h : ∀ e, Approaches inner s n P k (resume e)) : Approaches inner s n P (k + 1) x

namespace Approaches

variable {P : Flow Wait (Registry ε) α → Prop} {Q : Flow Wait (Registry ε) β → Prop}

theorem bind {k : Nat} {x : Flow Wait (Registry ε) α} (h : Approaches inner s n P k x)
    {f : α → Flow Wait (Registry ε) β} (hf : ∀ y, P y → Q (y >>= f)) :
    Approaches inner s n Q k (x >>= f) := by
  induction h with
  | now h => exact .now (hf _ h)
  | turn wait left resume hx hwait hleft h ih =>
    refine .turn wait left (fun e => resume e >>= f) (fun e => ?_) hwait hleft ih
    exact bind_of_pause (hx e) f

end Approaches

/-- The program asks an engine that has let the call in for its answer. -/
def Answers (s : Registry ε) (n : Nat) (c : Call)
    (x : Flow Wait (Registry ε) (Except EngineError c.Answer)) : Prop :=
  ∀ e, x (s.withEngine n e) =
    .done (Engine.answer c e).1 (s.withEngine n (Engine.answer c e).2)

/-- What is left of a call that has entered. -/
def entered (n : Nat) (c : Call) (passage : Passage) :
    Flow Wait (Registry ε) (Except EngineError c.Answer) := do
  if passage.givesWay then Flow.pause .turn
  Flow.pause (if passage.looks then .look else .answer)
  onEngine n (.error noEngine) (Engine.answer c)

/-- What is left of a call that has arrived and is not refused. -/
def admitted (n : Nat) (c : Call) : Flow Wait (Registry ε) (Except EngineError c.Answer) :=
  onEngine n {} (Engine.enter c) >>= entered n c

omit [Engine ε] in
theorem onEngine_withEngine (h : (s.engines[n]?).isSome) (missing : α) (f : ε → α × ε) (e : ε) :
    onEngine n missing f (s.withEngine n e) = .done (f e).1 (s.withEngine n (f e).2) := by
  obtain ⟨e₀, he₀⟩ := Option.isSome_iff_exists.mp h
  have he := getElem?_withEngine he₀ e
  show Turns.done (_ : α × Registry ε).1 (_ : α × Registry ε).2 = _
  simp only [he]
  exact congrArg (Turns.done (f e).1) (withEngine_withEngine s n e (f e).2)

theorem ask_receives (h : (s.engines[n]?).isSome) (hinner : Unhindered inner) (c : Call) (e : ε) :
    ask n c (s.withEngine n e) =
      .pause (.admission n c) (s.withEngine n (Engine.receive c e).2) (admitted n c) := by
  have hreceive := onEngine_withEngine h (some noEngine) (Engine.receive c) e
  rw [hinner.receives c e] at hreceive
  unfold ask
  exact (bind_of_done hreceive _).trans rfl

theorem idle_look : Idle ε .look :=
  ⟨fun _ => rfl, fun _ _ _ => nofun⟩

theorem idle_answer : Idle ε .answer :=
  ⟨fun _ => rfl, fun _ _ _ => nofun⟩

theorem idle_turn : Idle ε .turn :=
  ⟨fun _ => rfl, fun _ _ _ => nofun⟩

theorem approaches_answer (h : (s.engines[n]?).isSome) (hinner : Unhindered inner) (c : Call) :
    Approaches inner s n (Answers s n c) 2 (admitted n c) := by
  have hanswers : Answers s n c (onEngine n (.error noEngine) (Engine.answer c)) :=
    onEngine_withEngine h _ _
  have hcounted (e : ε) : (inner e).Counted (inner (Engine.enter c e).2) := by
    rw [hinner.enter]
    exact InMemoryEngine.countCall_eq c (inner e)
  have hwait (p : Passage) : Idle ε (if p.looks then .look else .answer) := by
    cases p.looks
    · exact idle_answer
    · exact idle_look
  have henter (e : ε) : (admitted n c) (s.withEngine n e) =
      (entered n c (Engine.enter c e).1) (s.withEngine n (Engine.enter c e).2) := by
    exact bind_of_done (onEngine_withEngine h {} (Engine.enter c) e) _
  refine .turn
    (fun e => if (Engine.enter c e).1.givesWay then .turn
      else if (Engine.enter c e).1.looks then .look else .answer)
    (fun e => (Engine.enter c e).2)
    (fun e => if (Engine.enter c e).1.givesWay then
        entered n c { (Engine.enter c e).1 with givesWay := false }
      else onEngine n (.error noEngine) (Engine.answer c))
    (fun e => ?_) (fun e => ?_) hcounted (fun e => ?_)
  · rw [henter]
    unfold entered
    cases (Engine.enter c e).1.givesWay <;> rfl
  · cases (Engine.enter c e).1.givesWay
    · exact hwait _
    · exact idle_turn
  · cases (Engine.enter c e).1.givesWay
    · exact .now hanswers
    · refine .turn (fun _ => if (Engine.enter c e).1.looks then .look else .answer) id
        (fun _ => onEngine n (.error noEngine) (Engine.answer c))
        (fun _ => rfl) (fun _ => hwait _) (fun _ => .refl _) fun _ => .now hanswers

/-! ## What a creation comes to in its turns -/

/-- Locks the wallet after something, whatever came of it. -/
def thenLock (n : Nat) (x : Flow Wait (Registry ε) α) : Flow Wait (Registry ε) α := do
  let a ← x
  onEngine n () fun e => ((), Engine.lock e)
  return a

theorem thenLock_pure (n : Nat) (a : α) :
    (thenLock n (pure a) : Flow Wait (Registry ε) α) =
      onEngine n () (fun e => ((), Engine.lock e)) >>= fun _ => pure a :=
  pure_bind a _

theorem thenLock_bind (n : Nat) (x : Flow Wait (Registry ε) α) (f : α → Flow Wait (Registry ε) β) :
    thenLock n (x >>= f) = x >>= fun a => thenLock n (f a) := by
  unfold thenLock
  rw [bind_assoc]

/-- How a creation goes on from the answer to its unlocking. -/
def onceUnlocked (a : Access) (name : String) :
    Except EngineError Unit → Flow Wait (Registry ε) (Outcome UInt32)
  | .error f => return .error (.ofEngine f)
  | .ok () => thenLock a.engine (newAccount a name).run

theorem whileUnlocked_run (a : Access) (name passphrase : String) :
    (whileUnlocked a passphrase (newAccount a name) : Op ε UInt32).run =
      ask a.engine (.unlock passphrase) >>= onceUnlocked a name := by
  unfold whileUnlocked unlock call attempt lock conclude
  simp only [ExceptT.run_bind, ExceptT.run_mk, ExceptT.run_lift, bind_assoc, pure_bind,
    map_eq_pure_bind]
  congr 1
  funext reply
  cases reply with
  | error f => rfl
  | ok u => simp [Except.mapError, onceUnlocked, thenLock]

/-- A creation after its first turn. -/
def create (w : WalletId) (name passphrase : String) :
    Flow Wait (Registry ε) (Outcome UInt32) := do
  match (← get).registration? w with
  | some r => ask r.access.engine (.unlock passphrase) >>= onceUnlocked r.access name
  | none => return .error (.notFound (.wallet w))

theorem createAccount_run (w : WalletId) (name passphrase : String) :
    (createAccount w name passphrase : Op ε UInt32).run =
      Flow.pause .look >>= fun _ => create w name passphrase := by
  unfold createAccount access entry pauseFor create
  simp only [ExceptT.run_bind, ExceptT.run_lift, bind_assoc, pure_bind, map_eq_pure_bind,
    whileUnlocked_run]
  refine congrArg (Flow.pause Wait.look >>= ·) (funext fun _ => funext fun s => ?_)
  have hread : (get : Op ε (Registry ε)).run s = .done (.ok s) s := rfl
  rw [bind_of_done hread, bind_of_done (get_done s)]
  dsimp only
  cases hr : s.registration? w with
  | none => cases s.key? w <;> rfl
  | some r =>
    obtain ⟨key, hkey, -⟩ := Option.bind_eq_some_iff.mp hr
    simp [hkey]

/-- In the turn in which the engine answers with the new account, or refuses it, the wallet
is locked and the call is done. -/
def Leaves (inner : ε → InMemoryEngine) (s : Registry ε) (n : Nat) (name : String)
    (x : Flow Wait (Registry ε) (Outcome UInt32)) : Prop :=
  ∀ e, ∃ e', x (s.withEngine n e) =
      .done (((inner e).newAccount name).1.mapError .ofEngine) (s.withEngine n e') ∧
    inner e' = ((inner e).newAccount name).2.lock

/-- In the turn in which the wallet is unlocked the account is asked for. -/
def Unlocks (inner : ε → InMemoryEngine) (s : Registry ε) (n : Nat) (passphrase name : String)
    (x : Flow Wait (Registry ε) (Outcome UInt32)) : Prop :=
  ∀ e, (inner e).passphrase = passphrase → ∃ scope e' resume, x (s.withEngine n e) =
      .pause (.admission n (.nextAccount scope name)) (s.withEngine n e') resume ∧
    inner e' = { inner e with locked := false } ∧
    Approaches inner s n (Leaves inner s n name) 2 resume

theorem leaves_of_answers (h : (s.engines[n]?).isSome) (hinner : Unhindered inner)
    {scope : Option KeyScope} {name : String}
    {x : Flow Wait (Registry ε) (Except EngineError UInt32)}
    (hx : Answers s n (.nextAccount scope name) x) :
    Leaves inner s n name
      (x >>= fun reply => thenLock n (pure (reply.mapError Failure.ofEngine))) := by
  intro e
  have hanswer : ((Engine.answer (.nextAccount scope name) e).1,
      inner (Engine.answer (.nextAccount scope name) e).2) = (inner e).newAccount name :=
    hinner.answer (.nextAccount scope name) e
  have hlocked := onEngine_withEngine h () (fun e => ((), Engine.lock e))
    (Engine.answer (.nextAccount scope name) e).2
  rw [← hanswer]
  refine ⟨_, ?_, hinner.lock _⟩
  rw [bind_of_done (hx e), thenLock_pure, bind_of_done hlocked]
  rfl

theorem newAccount_receives {a : Access} (h : (s.engines[a.engine]?).isSome)
    (hinner : Unhindered inner) {e : ε} (he : (inner e).locked = false) (name : String) :
    (newAccount a name : Op ε UInt32).run (s.withEngine a.engine e) =
      .pause (.admission a.engine (.nextAccount a.scope name))
        (s.withEngine a.engine (Engine.receive (.nextAccount a.scope name) e).2)
        (admitted a.engine (.nextAccount a.scope name) >>= fun reply =>
          pure (reply.mapError Failure.ofEngine)) := by
  obtain ⟨e₀, he₀⟩ := Option.isSome_iff_exists.mp h
  have hengine := getElem?_withEngine he₀ e
  have hlocked :
      ((s.withEngine a.engine e).engines[a.engine]?.map Engine.isLocked).getD true = false := by
    rw [hengine]
    exact (hinner.isLocked e).trans he
  have hrun : (newAccount a name : Op ε UInt32).run = (do
      if ((← get).engines[a.engine]?.map Engine.isLocked).getD true then
        return .error .walletLocked
      else return (← ask a.engine (.nextAccount a.scope name)).mapError .ofEngine) := rfl
  rw [hrun, bind_of_done (get_done _), hlocked]
  exact bind_of_pause (ask_receives h hinner (.nextAccount a.scope name) e) _

theorem unlocks_of_answers {a : Access} (h : (s.engines[a.engine]?).isSome)
    (hinner : Unhindered inner) {passphrase name : String}
    {x : Flow Wait (Registry ε) (Except EngineError Unit)}
    (hx : Answers s a.engine (.unlock passphrase) x) :
    Unlocks inner s a.engine passphrase name (x >>= onceUnlocked a name) := by
  intro e hp
  have hanswer : ((Engine.answer (.unlock passphrase) e).1,
      inner (Engine.answer (.unlock passphrase) e).2) =
      (.ok (), { inner e with locked := false }) := by
    rw [hinner.answer]
    exact if_pos hp.symm
  obtain ⟨hok, hunlocked⟩ := Prod.ext_iff.mp hanswer
  have hdone := bind_of_done (hx e) (onceUnlocked a name)
  rw [show (Engine.answer (.unlock passphrase) e).1 = .ok () from hok] at hdone
  have hreceives := newAccount_receives h hinner (congrArg (·.locked) hunlocked) name
  refine ⟨a.scope, _, thenLock a.engine (admitted a.engine (.nextAccount a.scope name) >>= _),
    hdone.trans (bind_of_pause hreceives _), (hinner.receive _ _).trans hunlocked, ?_⟩
  rw [thenLock_bind]
  exact (approaches_answer h hinner (.nextAccount a.scope name)).bind fun y hy =>
    leaves_of_answers h hinner hy

theorem approaches_unlock {w : WalletId} {r : Registration} (hr : s.registration? w = some r)
    (h : (s.engines[r.access.engine]?).isSome) (hinner : Unhindered inner)
    (passphrase name : String) :
    Approaches inner s r.access.engine (Unlocks inner s r.access.engine passphrase name) 4
      (createAccount w name passphrase).run := by
  have hwait : Idle ε (.admission r.access.engine (.unlock passphrase)) :=
    ⟨fun s => hinner.isOver_admission s _ _, fun _ _ _ => nofun⟩
  have hreceives (e : ε) : create w name passphrase (s.withEngine r.access.engine e) =
      .pause (.admission r.access.engine (.unlock passphrase))
        (s.withEngine r.access.engine (Engine.receive (.unlock passphrase) e).2)
        (admitted r.access.engine (.unlock passphrase) >>= onceUnlocked r.access name) := by
    have hwallet : (s.withEngine r.access.engine e).registration? w = some r := hr
    unfold create
    rw [bind_of_done (get_done _), hwallet]
    exact bind_of_pause (ask_receives h hinner (.unlock passphrase) e) _
  rw [createAccount_run]
  -- the wallet is looked up, then its engine is asked to unlock it
  refine .turn (fun _ => .look) id (fun _ => create w name passphrase) (fun _ => rfl)
    (fun _ => idle_look) (fun _ => .refl _) fun _ => ?_
  refine .turn (fun _ => .admission r.access.engine (.unlock passphrase))
    (fun e => (Engine.receive (.unlock passphrase) e).2)
    (fun _ => admitted r.access.engine (.unlock passphrase) >>= onceUnlocked r.access name)
    hreceives (fun _ => hwait) (fun e => ⟨_, hinner.receive _ _⟩) fun _ => ?_
  exact (approaches_answer h hinner (.unlock passphrase)).bind fun y hy =>
    unlocks_of_answers h hinner hy

end Registry

end Purse
