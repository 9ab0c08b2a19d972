import Purse.Registry.Accounts

/-!
# Operations with nobody in between

`Op.exec` runs an operation through all its pauses at once. Its lemmas take an
operation apart the way it was put together (`exec_bind`), so that from here on nothing
is seen of turns.

All that an operation does to an engine are whole calls. `Engine.Talk` says which calls
lead from one state of an engine to another, and what was answered; `ask_run` and
`call_exec` say that asking is a call.
-/

namespace Purse

/-- A call with its answer. -/
structure Exchange where
  call : Call
  reply : Except EngineError call.Answer

/-- The engine goes through exactly these calls, with these answers. -/
inductive Engine.Talk {ε : Type} [Engine ε] : ε → List Exchange → ε → Prop
  | nil (e : ε) : Talk e [] e
  | cons {e e' : ε} {xs : List Exchange} (c : Call) (h : Talk (ask c e).2 xs e') :
      Talk e (⟨c, (ask c e).1⟩ :: xs) e'

/-- Only failures are renamed. -/
theorem ok_of_mapError {α β γ : Type} {f : α → β} {x : Except α γ} {c : γ}
    (h : x.mapError f = .ok c) : x = .ok c := by
  cases x with
  | error _ => cases h
  | ok _ =>
    cases h
    rfl

namespace Registry

variable {ε : Type} {α β : Type} {s : Registry ε} {n : Nat} {e : ε}

/-- The registry with another state of an engine. -/
def withEngine (s : Registry ε) (n : Nat) (e : ε) : Registry ε :=
  { s with engines := s.engines.set n e }

theorem withEngine_withEngine (s : Registry ε) (n : Nat) (e e' : ε) :
    (s.withEngine n e).withEngine n e' = s.withEngine n e' := by
  unfold withEngine
  rw [List.set_set]

theorem withEngine_self (h : s.engines[n]? = some e) : s.withEngine n e = s := by
  obtain ⟨hn, rfl⟩ := List.getElem?_eq_some_iff.mp h
  unfold withEngine
  rw [List.set_getElem_self]

theorem getElem?_withEngine (h : s.engines[n]? = some e) (e' : ε) :
    (s.withEngine n e').engines[n]? = some e' := by
  obtain ⟨hn, -⟩ := List.getElem?_eq_some_iff.mp h
  exact List.getElem?_set_self hn

/-! ## Operations taken apart -/

/-- The operation with nobody in between. -/
def Op.exec (x : Op ε α) (s : Registry ε) : Outcome α × Registry ε :=
  Flow.run x.run s

theorem exec_bind (x : Op ε α) (f : α → Op ε β) (s : Registry ε) :
    (x >>= f : Op ε β).exec s = match x.exec s with
      | (.ok a, s') => (f a).exec s'
      | (.error e, s') => (.error e, s') := by
  have hbind := Flow.run_bind x.run (ExceptT.bindCont f) s
  show Flow.run (x.run >>= ExceptT.bindCont f) s = _
  rw [hbind]
  unfold Op.exec
  rcases Flow.run x.run s with ⟨o, s'⟩
  cases o <;> rfl

/-- A first part that succeeds hands over to the second. -/
theorem exec_bind_ok {x : Op ε α} {a : α} {s' : Registry ε} (h : x.exec s = (.ok a, s'))
    (f : α → Op ε β) : (x >>= f : Op ε β).exec s = (f a).exec s' := by
  rw [exec_bind, h]

/-- A first part that fails is all there is. -/
theorem exec_bind_error {x : Op ε α} {f : Failure} {s' : Registry ε}
    (h : x.exec s = (.error f, s')) (g : α → Op ε β) :
    (x >>= g : Op ε β).exec s = (.error f, s') := by
  rw [exec_bind, h]

/-- What is made of a result; a failure stays. -/
theorem exec_map {x : Op ε α} {o : Outcome α} {s' : Registry ε} (h : x.exec s = (o, s'))
    (f : α → β) : (do return f (← x) : Op ε β).exec s = (o.map f, s') := by
  cases o with
  | ok a => exact exec_bind_ok h _
  | error g => exact exec_bind_error h _

theorem exec_pure (a : α) (s : Registry ε) : (pure a : Op ε α).exec s = (.ok a, s) := rfl

theorem exec_get (s : Registry ε) : (get : Op ε (Registry ε)).exec s = (.ok s, s) := rfl

theorem exec_modify (f : Registry ε → Registry ε) (s : Registry ε) :
    (modify f : Op ε PUnit).exec s = (.ok ⟨⟩, f s) := rfl

theorem exec_pauseFor (wait : Wait) (s : Registry ε) :
    (pauseFor wait : Op ε Unit).exec s = (.ok (), s) := rfl

theorem exec_conclude (o : Outcome α) (s : Registry ε) : (conclude o : Op ε α).exec s = (o, s) := rfl

theorem exec_attempt (x : Op ε α) (s : Registry ε) :
    (attempt x).exec s = (.ok (x.exec s).1, (x.exec s).2) := by
  have hbind := Flow.run_bind x.run
    (pure ∘ Except.ok : Outcome α → Flow Wait (Registry ε) (Outcome (Outcome α))) s
  exact hbind

/-- A wallet that is not loaded is not found, and nothing happens. -/
theorem entry_exec_none {w : WalletId} (h : s.registration? w = none) :
    (entry w : Op ε (Nat × Registration)).exec s = (.error (.notFound (.wallet w)), s) := by
  unfold entry
  rw [exec_bind_ok (exec_pauseFor _ s), exec_bind_ok (exec_get s), h]
  cases s.key? w <;> rfl

theorem entry_exec_some {w : WalletId} {key : Nat} {r : Registration} (hk : s.key? w = some key)
    (hr : s.registration? w = some r) :
    (entry w : Op ε (Nat × Registration)).exec s = (.ok (key, r), s) := by
  unfold entry
  rw [exec_bind_ok (exec_pauseFor _ s), exec_bind_ok (exec_get s), hk, hr]
  rfl

theorem access_exec {w : WalletId} {r : Registration} (hr : s.registration? w = some r) :
    (access w : Op ε Access).exec s = (.ok r.access, s) := by
  obtain ⟨key, hkey, -⟩ := Option.bind_eq_some_iff.mp hr
  exact exec_bind_ok (entry_exec_some hkey hr) _

/-! ## Calls -/

theorem onEngine_run (h : s.engines[n]? = some e) (missing : α) (f : ε → α × ε) :
    (onEngine n missing f).run s = ((f e).1, s.withEngine n (f e).2) := by
  show Turns.run (Turns.done (_ : α × Registry ε).1 (_ : α × Registry ε).2) = _
  unfold Turns.run
  simp only [h]
  rfl

theorem onEngine_run_none (h : s.engines[n]? = none) (missing : α) (f : ε → α × ε) :
    (onEngine n missing f).run s = (missing, s) := by
  show Turns.run (Turns.done (_ : α × Registry ε).1 (_ : α × Registry ε).2) = _
  unfold Turns.run
  simp only [h]

variable [Engine ε]

/-- An engine that does not exist refuses. -/
theorem ask_run_none (h : s.engines[n]? = none) (c : Call) :
    (ask n c).run s = (.error noEngine, s) := by
  unfold ask
  rw [Flow.run_bind, onEngine_run_none h, Flow.run_bind, Flow.run_pause]
  rfl

/-- To ask an engine is a whole call. -/
theorem ask_run (h : s.engines[n]? = some e) (c : Call) :
    (ask n c).run s = ((Engine.ask c e).1, s.withEngine n (Engine.ask c e).2) := by
  unfold ask Engine.ask
  rw [Flow.run_bind, onEngine_run h, Flow.run_bind, Flow.run_pause]
  rcases Engine.receive c e with ⟨refusal, e₁⟩
  have h₁ := getElem?_withEngine h e₁
  cases refusal with
  | some refusal => rfl
  | none =>
    dsimp only
    rw [Flow.run_bind, onEngine_run h₁, withEngine_withEngine]
    have h₂ := getElem?_withEngine h (Engine.enter c e₁).2
    have hans := onEngine_run h₂ (.error noEngine) (Engine.answer c)
    rw [withEngine_withEngine] at hans
    cases (Engine.enter c e₁).1.givesWay with
    | true => exact hans
    | false => exact hans

theorem call_exec (a : Access) (h : s.engines[a.engine]? = some e) (c : Call) :
    (call a c).exec s =
      ((Engine.ask c e).1.mapError Failure.ofEngine, s.withEngine a.engine (Engine.ask c e).2) := by
  show Flow.run (ask a.engine c >>= fun r => pure (r.mapError Failure.ofEngine)) s = _
  rw [Flow.run_bind, ask_run h]
  rfl

/-- What comes of a reply: a refusal is a failure, and a report is taken over if it makes
sense. -/
def outcomeOfReply (f : β → Except BadAnswer α) (reply : Except EngineError β) :
    Outcome α := do
  (f (← reply.mapError Failure.ofEngine)).mapError Failure.backend

/-- To ask an engine and take its report over is a whole call. -/
theorem acceptCall_exec (a : Access) (h : s.engines[a.engine]? = some e) (c : Call)
    (f : c.Answer → Except BadAnswer α) :
    (do accept (f (← call a c)) : Op ε α).exec s =
      (outcomeOfReply f (Engine.ask c e).1, s.withEngine a.engine (Engine.ask c e).2) := by
  have hcall := call_exec a h c
  generalize Engine.ask c e = answer at *
  obtain ⟨reply, e'⟩ := answer
  cases reply with
  | error refusal => exact exec_bind_error hcall _
  | ok report => exact exec_bind_ok hcall _

end Registry

end Purse
