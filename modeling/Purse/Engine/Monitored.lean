import Purse.Engine

/-!
# Monitored engines

A monitored engine writes down every call, refuses the calls it is told to
refuse, and can hold the listing of accounts back. A call that is refused or held
does not reach the engine behind.
-/

namespace Purse

/-- The kind of a call, whatever its arguments. -/
inductive CallKind where
  | accounts
  | balance
  | unspent
  | nextAccount
  | renameAccount
  | accountName
  | accountNumber
  | unlock
  | lock
  | mixerActive
  | startMixer
  | stopMixer
  deriving DecidableEq, Repr

def Call.kind : Call → CallKind
  | accounts _ => .accounts
  | balance _ _ => .balance
  | unspent _ _ => .unspent
  | nextAccount _ _ => .nextAccount
  | renameAccount _ _ _ => .renameAccount
  | accountName _ _ => .accountName
  | accountNumber _ _ => .accountNumber
  | unlock _ => .unlock
  | lock => .lock
  | mixerActive => .mixerActive
  | startMixer _ => .startMixer
  | stopMixer => .stopMixer

/-- A refusal that starts after some calls have passed. -/
structure Fault where
  error : EngineError
  skip : Nat
  deriving DecidableEq, Repr

/-- An engine behind a monitor. -/
structure Monitored (ε : Type) where
  engine : ε
  /-- The calls so far, the latest first. -/
  log : List Call := []
  faults : List (CallKind × Fault) := []
  /-- Whether listings of accounts wait. -/
  held : Bool := false

namespace Monitored

variable {ε : Type}

/-- Sets or clears the fault of a kind of call. -/
def setFault (m : Monitored ε) (kind : CallKind) (fault : Option Fault) : Monitored ε :=
  let others := m.faults.filter (·.1 ≠ kind)
  { m with faults := fault.toList.map (fun f => (kind, f)) ++ others }

/-- Writes the call down and looks whether it is to be refused. -/
def receive (c : Call) (m : Monitored ε) : Option EngineError × Monitored ε :=
  let m := { m with log := c :: m.log }
  match m.faults.lookup c.kind with
  | none => (none, m)
  | some ⟨error, 0⟩ => (some error, m)
  | some ⟨error, skip + 1⟩ => (none, m.setFault c.kind (some ⟨error, skip⟩))

/-- The calls since the log was last taken, in order, and an empty log. -/
def takeLog (m : Monitored ε) : List Call × Monitored ε :=
  (m.log.reverse, { m with log := [] })

instance [Engine ε] : Engine (Monitored ε) where
  asset m := Engine.asset m.engine
  isLocked m := Engine.isLocked m.engine
  mixedAccount m := Engine.mixedAccount m.engine
  unmixedAccount m := Engine.unmixedAccount m.engine
  lock m := { m with engine := Engine.lock m.engine, log := .lock :: m.log }
  receive := Monitored.receive
  admits c m := !(m.held && c.kind = .accounts)
  enter c m :=
    let (passage, e) := Engine.enter c m.engine
    (passage, { m with engine := e })
  answer c m :=
    let (reply, e) := Engine.answer c m.engine
    (reply, { m with engine := e })

end Monitored

end Purse
