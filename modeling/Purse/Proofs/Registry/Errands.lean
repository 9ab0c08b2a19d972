import Purse.Proofs.Registry.Refresh

/-!
# Errands that have to do with a wallet's lock

A `Dealing` is one thing done to an engine, with the state it was done in, so that a list
of them can be asked what the engine said about itself at any moment. `Making` tells how
one account after the other is asked for, and `Errand.Goes` how an errand goes: to unlock
or to lock the wallet, to ask for an account, or to unlock the wallet for new accounts
only. Each errand goes like that with any engine (`Errand.on_exec`), and so does each of a
sequence of errands, from where the one before has left the engine (`inTurn_exec`).
-/

namespace Purse

/-- Each part of the list begins where the one before it has ended. -/
inductive Leads {α σ : Type} (found left : α → σ) : σ → List α → σ → Prop
  | nil (s : σ) : Leads found left s [] s
  | cons {l : List α} {s : σ} (a : α) (h : Leads found left (left a) l s) :
      Leads found left (found a) (a :: l) s

namespace Leads

variable {α β σ : Type} {found left : α → σ} {s s' s'' : σ} {l l' : List α}

theorem append (h : Leads found left s l s') (h' : Leads found left s' l' s'') :
    Leads found left s (l ++ l') s'' := by
  induction h with
  | nil => exact h'
  | cons a _ ih => exact .cons a (ih h')

/-- Where each part leads from its beginning to its end in smaller parts, so does the whole. -/
theorem flatMap {found' left' : β → σ} {parts : α → List β} (h : Leads found left s l s')
    (hparts : ∀ a ∈ l, Leads found' left' (found a) (parts a) (left a)) :
    Leads found' left' s (l.flatMap parts) s' := by
  induction h with
  | nil => exact .nil _
  | cons a _ ih =>
    rw [List.flatMap_cons]
    have hfirst := hparts a List.mem_cons_self
    exact hfirst.append (ih fun b hb => hparts b (List.mem_cons_of_mem _ hb))

end Leads

/-! ## Dealings with an engine -/

/-- Something that is done to an engine, in the state it is found in. -/
inductive Dealing (ε : Type) where
  | asked (found : ε) (call : Call)
  | locked (found : ε)

variable {ε : Type}

namespace Dealing

def found : Dealing ε → ε
  | asked e _ | locked e => e

/-- The call as a monitor writes it down. -/
def call : Dealing ε → Call
  | asked _ c => c
  | locked _ => .lock

/-- The state that the engine is in after it. -/
def left [Engine ε] : Dealing ε → ε
  | asked e c => (Engine.ask c e).2
  | locked e => Engine.lock e

end Dealing

variable [Engine ε]

/-- The engine goes through exactly these dealings. -/
abbrev Engine.Deals : ε → List (Dealing ε) → ε → Prop :=
  Leads Dealing.found Dealing.left

/-- The log has all dealings, the latest first. -/
theorem Monitored.log_deals {m m' : Monitored ε} {ds : List (Dealing (Monitored ε))}
    (h : Engine.Deals m ds m') : m'.log = (ds.map (·.call)).reverse ++ m.log := by
  induction h with
  | nil m => rfl
  | cons d h ih =>
    have hlog : d.left.log = d.call :: d.found.log := by
      cases d with
      | asked m c => exact log_ask c m
      | locked m => rfl
    rw [ih, hlog, List.map_cons, List.reverse_cons, List.append_assoc]
    rfl

/-! ## Asking for accounts -/

/-- Asking for accounts of these names in the scope, one after the other until one fails. -/
inductive Making (scope : Option KeyScope) :
    List String → ε → List (Dealing ε) → Outcome (List UInt32) → ε → Prop
  | done (e : ε) : Making scope [] e [] (.ok []) e
  | barred {e : ε} (name : String) (names : List String) (h : Engine.isLocked e = true) :
      Making scope (name :: names) e [] (.error .walletLocked) e
  | refused {e : ε} {f : EngineError} (name : String) (names : List String)
      (h : Engine.isLocked e = false)
      (hreply : (Engine.ask (.nextAccount scope name) e).1 = .error f) :
      Making scope (name :: names) e [.asked e (.nextAccount scope name)] (.error (.ofEngine f))
        (Engine.ask (.nextAccount scope name) e).2
  | made {e e' : ε} {name : String} {names : List String} {number : UInt32} {ds : List (Dealing ε)}
      {o : Outcome (List UInt32)} (h : Engine.isLocked e = false)
      (hreply : (Engine.ask (.nextAccount scope name) e).1 = .ok number)
      (hrest : Making scope names (Engine.ask (.nextAccount scope name) e).2 ds o e') :
      Making scope (name :: names) e (.asked e (.nextAccount scope name) :: ds)
        (o.map (number :: ·)) e'

namespace Making

variable {scope : Option KeyScope} {names : List String} {e e' : ε} {ds : List (Dealing ε)}
  {o : Outcome (List UInt32)}

theorem deals (h : Making scope names e ds o e') : Engine.Deals e ds e' := by
  induction h with
  | done e => exact .nil e
  | barred => exact .nil _
  | refused name => exact .cons (Dealing.asked _ (.nextAccount scope name)) (.nil _)
  | @made e _ name _ _ _ _ _ _ _ ih => exact .cons (Dealing.asked e (.nextAccount scope name)) ih

/-- An engine that is asked for an account says that it is unlocked. -/
theorem unlocked (h : Making scope names e ds o e') {e₁ : ε} {scope' : Option KeyScope}
    {name : String} (hd : Dealing.asked e₁ (.nextAccount scope' name) ∈ ds) :
    Engine.isLocked e₁ = false := by
  induction h with
  | done => simp at hd
  | barred => simp at hd
  | refused _ _ h =>
    cases List.mem_singleton.mp hd
    exact h
  | made h _ _ ih =>
    rcases List.mem_cons.mp hd with heq | hd
    · cases heq
      exact h
    · exact ih hd

/-- The names are asked for in their order. -/
theorem calls_prefix (h : Making scope names e ds o e') :
    ds.map (·.call) <+: names.map (.nextAccount scope) := by
  induction h with
  | done => exact List.nil_prefix
  | barred => exact List.nil_prefix
  | refused => exact (List.prefix_cons_inj _).mpr List.nil_prefix
  | made _ _ _ ih => exact (List.prefix_cons_inj _).mpr ih

end Making

namespace Registry

/-! ## Errands -/

/-- New accounts, one after the other until one fails; the wallet is unlocked for them
only. -/
def createAccounts (w : WalletId) (names : List String) (passphrase : String) :
    Op ε (List UInt32) := do
  let a ← access w
  whileUnlocked a passphrase (names.mapM (newAccount a))

/-- What is done with a wallet that has to do with its lock. -/
inductive Errand where
  | unlock (passphrase : String)
  | lock
  | next (name : String)
  | create (name passphrase : String)
  | createAll (names : List String) (passphrase : String)
  deriving DecidableEq, Repr

namespace Errand

/-- The errand as an operation, which answers with the numbers of new accounts. -/
def on (w : WalletId) : Errand → Op ε (List UInt32)
  | unlock passphrase => do
    Registry.unlock (← access w) passphrase
    return []
  | lock => do
    Registry.lock (← access w)
    return []
  | next name => return [← nextAccount w name]
  | create name passphrase => return [← createAccount w name passphrase]
  | createAll names passphrase => createAccounts w names passphrase

/-- The passphrase with which an errand unlocks the wallet, and the accounts it does so
for. -/
def creation? : Errand → Option (String × List String)
  | create name passphrase => some (passphrase, [name])
  | createAll names passphrase => some (passphrase, names)
  | unlock _ | lock | next _ => none

/-- How an errand goes whose accounts are those of the scope: the dealings with the engine, and
what comes of it. -/
inductive Goes (scope : Option KeyScope) :
    Errand → ε → List (Dealing ε) → Outcome (List UInt32) → ε → Prop
  | unlocks (e : ε) (passphrase : String) :
      Goes scope (unlock passphrase) e [.asked e (.unlock passphrase)]
        (((Engine.ask (.unlock passphrase) e).1.mapError Failure.ofEngine).map fun _ => [])
        (Engine.ask (.unlock passphrase) e).2
  | locks (e : ε) : Goes scope lock e [.locked e] (.ok []) (Engine.lock e)
  | asks {e e' : ε} {name : String} {ds : List (Dealing ε)} {o : Outcome (List UInt32)}
      (h : Making scope [name] e ds o e') : Goes scope (next name) e ds o e'
  | refused {x : Errand} {e : ε} {passphrase : String} {names : List String} {f : EngineError}
      (hx : x.creation? = some (passphrase, names))
      (hreply : (Engine.ask (.unlock passphrase) e).1 = .error f) :
      Goes scope x e [.asked e (.unlock passphrase)] (.error (.ofEngine f))
        (Engine.ask (.unlock passphrase) e).2
  | creates {x : Errand} {e e' : ε} {passphrase : String} {names : List String}
      {ds : List (Dealing ε)} {o : Outcome (List UInt32)}
      (hx : x.creation? = some (passphrase, names))
      (hreply : (Engine.ask (.unlock passphrase) e).1 = .ok ())
      (h : Making scope names (Engine.ask (.unlock passphrase) e).2 ds o e') :
      Goes scope x e (.asked e (.unlock passphrase) :: (ds ++ [.locked e'])) o (Engine.lock e')

end Errand

/-! ## Errands with nobody in between -/

variable {α : Type} {s : Registry ε} {e e' : ε} {w : WalletId} {a : Access}

theorem lock_exec (h : s.engines[a.engine]? = some e) :
    (lock a).exec s = (.ok (), s.withEngine a.engine (Engine.lock e)) := by
  have hrun := onEngine_run h () fun e => ((), Engine.lock e)
  show Flow.run (onEngine a.engine () (fun e => ((), Engine.lock e)) >>= pure ∘ Except.ok) s = _
  rw [Flow.run_bind, hrun]
  rfl

theorem isLocked_exec (h : s.engines[a.engine]? = some e) :
    (isLocked a).exec s = (.ok (Engine.isLocked e), s) := by
  unfold isLocked look
  rw [exec_bind_ok (exec_get s), exec_pure, h]
  rfl

/-- While the wallet is locked the engine is not asked. -/
theorem newAccount_exec_locked (h : s.engines[a.engine]? = some e)
    (hlocked : Engine.isLocked e = true) (name : String) :
    (newAccount a name).exec s = (.error .walletLocked, s) := by
  unfold newAccount
  rw [exec_bind_ok (isLocked_exec h), hlocked]
  rfl

theorem newAccount_exec_unlocked (h : s.engines[a.engine]? = some e)
    (hlocked : Engine.isLocked e = false) (name : String) :
    (newAccount a name).exec s = (call a (.nextAccount a.scope name)).exec s := by
  unfold newAccount
  rw [exec_bind_ok (isLocked_exec h), hlocked]
  rfl

theorem newAccounts_exec (names : List String) (h : s.engines[a.engine]? = some e) :
    ∃ ds o e', Making a.scope names e ds o e' ∧
      (names.mapM (newAccount a)).exec s = (o, s.withEngine a.engine e') := by
  induction names generalizing s e with
  | nil =>
    refine ⟨[], .ok [], e, .done e, ?_⟩
    rw [List.mapM_nil, exec_pure, withEngine_self h]
  | cons name names ih =>
    rw [List.mapM_cons]
    cases hlocked : Engine.isLocked e with
    | true =>
      refine ⟨_, _, e, .barred name names hlocked, ?_⟩
      rw [exec_bind_error (newAccount_exec_locked h hlocked name), withEngine_self h]
    | false =>
      have hcall := call_exec a h (.nextAccount a.scope name)
      rw [← newAccount_exec_unlocked h hlocked] at hcall
      cases hreply : (Engine.ask (.nextAccount a.scope name) e).1 with
      | error f =>
        rw [hreply] at hcall
        exact ⟨_, _, _, .refused name names hlocked hreply, exec_bind_error hcall _⟩
      | ok number =>
        rw [hreply] at hcall
        -- the rest of the names is asked for where this call has left the engine
        obtain ⟨ds, o, e', hmaking, hexec⟩ := ih (getElem?_withEngine h _)
        rw [withEngine_withEngine] at hexec
        refine ⟨_, _, e', .made hlocked hreply hmaking, ?_⟩
        rw [exec_bind_ok hcall]
        exact exec_map hexec _

/-- A single account is asked for like a list of one. -/
theorem newAccount_exec (name : String) (h : s.engines[a.engine]? = some e) :
    ∃ ds o e', Making a.scope [name] e ds (o.map fun number => [number]) e' ∧
      (newAccount a name).exec s = (o, s.withEngine a.engine e') := by
  obtain ⟨ds, o, e', hmaking, hexec⟩ := newAccounts_exec [name] h
  have hsingle : ([name].mapM (newAccount a)).exec s =
      (((newAccount a name).exec s).1.map fun number => [number],
        ((newAccount a name).exec s).2) := by
    rw [List.mapM_cons, List.mapM_nil]
    exact exec_map rfl _
  rw [hexec] at hsingle
  obtain ⟨ho, hs⟩ := Prod.ext_iff.mp hsingle
  subst ho
  exact ⟨ds, _, e', hmaking, Prod.ext rfl hs.symm⟩

theorem whileUnlocked_exec_refused (h : s.engines[a.engine]? = some e) {passphrase : String}
    {f : EngineError} (hreply : (Engine.ask (.unlock passphrase) e).1 = .error f) (body : Op ε α) :
    (whileUnlocked a passphrase body).exec s =
      (.error (.ofEngine f), s.withEngine a.engine (Engine.ask (.unlock passphrase) e).2) := by
  have hcall := call_exec a h (.unlock passphrase)
  rw [hreply] at hcall
  exact exec_bind_error hcall _

theorem whileUnlocked_exec (h : s.engines[a.engine]? = some e) {passphrase : String}
    (hreply : (Engine.ask (.unlock passphrase) e).1 = .ok ()) {body : Op ε α} {o : Outcome α}
    (hbody : body.exec (s.withEngine a.engine (Engine.ask (.unlock passphrase) e).2) =
      (o, s.withEngine a.engine e')) :
    (whileUnlocked a passphrase body).exec s =
      (o, s.withEngine a.engine (Engine.lock e')) := by
  have hcall := call_exec a h (.unlock passphrase)
  rw [hreply] at hcall
  have hattempt := exec_attempt body (s.withEngine a.engine (Engine.ask (.unlock passphrase) e).2)
  rw [hbody] at hattempt
  have hlock := lock_exec (getElem?_withEngine h e')
  rw [withEngine_withEngine] at hlock
  unfold whileUnlocked unlock
  rw [exec_bind_ok hcall, exec_bind_ok hattempt, exec_bind_ok hlock, exec_conclude]

namespace Errand

/-- What asks for accounts while the wallet is unlocked goes like an errand that does so. -/
theorem whileUnlocked_goes {x : Errand} {passphrase : String} {names : List String}
    (hx : x.creation? = some (passphrase, names)) {body : Op ε α} {f : α → List UInt32}
    (hbody : ∀ {s : Registry ε} {e : ε}, s.engines[a.engine]? = some e → ∃ ds o e',
      Making a.scope names e ds (o.map f) e' ∧ body.exec s = (o, s.withEngine a.engine e'))
    (h : s.engines[a.engine]? = some e) :
    ∃ ds o e', x.Goes a.scope e ds (o.map f) e' ∧
      (whileUnlocked a passphrase body).exec s = (o, s.withEngine a.engine e') := by
  cases hreply : (Engine.ask (.unlock passphrase) e).1 with
  | error refusal =>
    refine ⟨_, .error (.ofEngine refusal), _, .refused hx hreply, ?_⟩
    exact whileUnlocked_exec_refused h hreply body
  | ok u =>
    obtain ⟨ds, o, e', hmaking, hexec⟩ := hbody (getElem?_withEngine h _)
    rw [withEngine_withEngine] at hexec
    exact ⟨_, o, _, .creates hx hreply hmaking, whileUnlocked_exec h hreply hexec⟩

/-- An errand goes as it may go, and touches nothing but the wallet's engine. -/
theorem on_exec {r : Registration} (hr : s.registration? w = some r)
    (h : s.engines[r.access.engine]? = some e) (x : Errand) :
    ∃ ds o e', x.Goes r.access.scope e ds o e' ∧
      (x.on w).exec s = (o, s.withEngine r.access.engine e') := by
  have haccess := access_exec hr
  cases x with
  | unlock passphrase =>
    have hcall := call_exec r.access h (.unlock passphrase)
    refine ⟨_, _, _, .unlocks e passphrase, ?_⟩
    exact (exec_bind_ok haccess _).trans (exec_map hcall fun _ => [])
  | lock =>
    refine ⟨_, _, _, .locks e, ?_⟩
    exact (exec_bind_ok haccess _).trans (exec_map (lock_exec h) fun _ => [])
  | next name =>
    obtain ⟨ds, o, e', hmaking, hexec⟩ := newAccount_exec name h
    refine ⟨ds, _, e', .asks hmaking, exec_map ?_ fun number => [number]⟩
    exact (exec_bind_ok haccess _).trans hexec
  | create name passphrase =>
    obtain ⟨ds, o, e', hgoes, hexec⟩ :=
      whileUnlocked_goes (x := create name passphrase) rfl (newAccount_exec name) h
    refine ⟨ds, _, e', hgoes, exec_map ?_ fun number => [number]⟩
    exact (exec_bind_ok haccess _).trans hexec
  | createAll names passphrase =>
    obtain ⟨ds, o, e', hgoes, hexec⟩ := whileUnlocked_goes (x := createAll names passphrase)
      (f := id) rfl (fun h => by simpa using newAccounts_exec names h) h
    rw [Except.map_id] at hgoes
    exact ⟨ds, o, e', hgoes, (exec_bind_ok haccess _).trans hexec⟩

/-! ## What is the same in all errands -/

variable {x : Errand} {scope : Option KeyScope} {ds : List (Dealing ε)} {o : Outcome (List UInt32)}

/-- The dealings of an errand lead from the one state of the engine to the other. -/
theorem Goes.deals (h : x.Goes scope e ds o e') : Engine.Deals e ds e' := by
  cases h with
  | unlocks _ passphrase => exact .cons (Dealing.asked e (.unlock passphrase)) (.nil _)
  | locks => exact .cons (Dealing.locked e) (.nil _)
  | asks hmaking => exact hmaking.deals
  | @refused _ _ passphrase => exact .cons (Dealing.asked e (.unlock passphrase)) (.nil _)
  | @creates _ _ e₁ passphrase _ _ _ _ _ hmaking =>
    have hrest := hmaking.deals.append (.cons (Dealing.locked e₁) (.nil _))
    exact .cons (Dealing.asked e (.unlock passphrase)) hrest

/-- An engine that is asked for an account says that it is unlocked. -/
theorem Goes.unlocked (h : x.Goes scope e ds o e') {e₁ : ε} {scope' : Option KeyScope}
    {name : String} (hd : Dealing.asked e₁ (.nextAccount scope' name) ∈ ds) :
    Engine.isLocked e₁ = false := by
  cases h with
  | unlocks => simp at hd
  | locks => simp at hd
  | asks hmaking => exact hmaking.unlocked hd
  | refused => simp at hd
  | creates _ _ hmaking =>
    simp only [List.mem_cons, List.mem_append, Dealing.asked.injEq, reduceCtorEq, and_false,
      false_or, List.not_mem_nil, or_false] at hd
    exact hmaking.unlocked hd

theorem Goes.making {name : String} (h : (next name).Goes scope e ds o e') :
    Making scope [name] e ds o e' := by
  cases h with
  | asks hmaking => exact hmaking
  | refused hx => exact nomatch hx
  | creates hx => exact nomatch hx

/-- Whoever unlocks a wallet for new accounts is refused, or has them made and locks it. -/
theorem Goes.creation {passphrase : String} {names : List String} (h : x.Goes scope e ds o e')
    (hx : x.creation? = some (passphrase, names)) :
    (∃ f, (Engine.ask (.unlock passphrase) e).1 = .error f ∧ o = .error (.ofEngine f) ∧
      ds = [.asked e (.unlock passphrase)] ∧ e' = (Engine.ask (.unlock passphrase) e).2) ∨
    ∃ ds₁ e₁, (Engine.ask (.unlock passphrase) e).1 = .ok () ∧
      Making scope names (Engine.ask (.unlock passphrase) e).2 ds₁ o e₁ ∧
      ds = .asked e (.unlock passphrase) :: (ds₁ ++ [.locked e₁]) ∧ e' = Engine.lock e₁ := by
  cases h with
  | unlocks => cases hx
  | locks => cases hx
  | asks => cases hx
  | refused hx' hreply =>
    cases hx'.symm.trans hx
    exact Or.inl ⟨_, hreply, rfl, rfl, rfl⟩
  | creates hx' hreply hmaking =>
    cases hx'.symm.trans hx
    exact Or.inr ⟨_, _, hreply, hmaking, rfl, rfl⟩

end Errand

/-! ## Sequences of errands -/

/-- An errand that has been carried out. -/
structure Visit (ε : Type) where
  errand : Errand
  /-- The engine at the beginning. -/
  found : ε
  dealings : List (Dealing ε)
  outcome : Outcome (List UInt32)
  /-- The engine at the end. -/
  left : ε

/-- Errands one after another, whatever comes of each. -/
def inTurn (w : WalletId) (errands : List Errand) : Op ε (List (Outcome (List UInt32))) :=
  errands.mapM fun x => attempt (x.on w)

/-- The errand has gone as such an errand goes. -/
def Visit.Goes (scope : Option KeyScope) (v : Visit ε) : Prop :=
  v.errand.Goes scope v.found v.dealings v.outcome v.left

/-- Each errand of a sequence goes as it may go, from where the one before has left the
engine. -/
theorem inTurn_exec {r : Registration} (hr : s.registration? w = some r)
    (h : s.engines[r.access.engine]? = some e) (errands : List Errand) :
    ∃ visits e', visits.map (·.errand) = errands ∧ Leads Visit.found Visit.left e visits e' ∧
      (∀ v ∈ visits, v.Goes r.access.scope) ∧ (inTurn w errands).exec s =
        (.ok (visits.map (·.outcome)), s.withEngine r.access.engine e') := by
  unfold inTurn
  induction errands generalizing s e with
  | nil =>
    refine ⟨[], e, rfl, .nil e, by simp, ?_⟩
    rw [List.mapM_nil, exec_pure, withEngine_self h]
    rfl
  | cons x errands ih =>
    obtain ⟨ds, o, e₁, hgoes, hexec⟩ := x.on_exec hr h
    -- the wallet is still there and has the same engine
    have hr₁ : (s.withEngine r.access.engine e₁).registration? w = some r := hr
    obtain ⟨visits, e', herrands, hleads, hall, hrest⟩ := ih hr₁ (getElem?_withEngine h e₁)
    rw [withEngine_withEngine] at hrest
    have hattempt := exec_attempt (x.on w) s
    rw [hexec] at hattempt
    refine ⟨⟨x, e, ds, o, e₁⟩ :: visits, e', ?_, ?_, ?_, ?_⟩
    · rw [List.map_cons, herrands]
    · exact .cons (⟨x, e, ds, o, e₁⟩ : Visit ε) hleads
    · intro v hv
      rcases List.mem_cons.mp hv with rfl | hv
      · exact hgoes
      · exact hall v hv
    · rw [List.mapM_cons, exec_bind_ok hattempt]
      exact exec_map hrest _

end Registry

end Purse
