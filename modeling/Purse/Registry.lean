import Purse.Config
import Purse.Engine
import Purse.Turns

/-!
# The registry of wallets

The registry knows which wallets are loaded, through which engine each is
reached, and the picture of its accounts taken last. Two wallets may share an
engine.

A registration is what a wallet got when it was loaded. It has a number that is
never used again, so that work begun for it cannot be mistaken for work on a later
registration of the same wallet. Whoever refreshes a registration lines up with a
ticket; the first in the line holds the refresh lock.
-/

namespace Purse

/-- How a wallet is reached. -/
structure Access where
  engine : Nat
  asset : Asset
  network : Network
  deriving DecidableEq, Repr, Inhabited

namespace Access

/-- Where the wallet's accounts are derived, as far as its engine has to be told. -/
def scope (a : Access) : Option KeyScope :=
  match a.asset with
  | .btc => some (a.asset.keyScope a.network)
  | .dcr => none

/-- Outputs are listed however deep they lie, which a Bitcoin engine has to be told. -/
def depths (a : Access) : Option Depths :=
  match a.asset with
  | .btc => some ⟨0, Int32.maxValue⟩
  | .dcr => none

/-- The derivation path of an account. -/
def accountPath (a : Access) (account : UInt32) : String :=
  a.asset.accountPath a.network account

end Access

/-- A loaded wallet. -/
structure Registration where
  access : Access
  /-- The accounts as of the last refresh. -/
  snapshot : Option Accounts := none
  /-- The tickets of those who refresh; the first one holds the lock. -/
  line : List Nat := []
  deriving Repr

/-- The loaded wallets and their engines. -/
structure Registry (ε : Type) where
  config : Config
  /-- All engines ever loaded, by number. -/
  engines : List ε := []
  /-- All registrations ever made, by number. -/
  registrations : List Registration := []
  /-- The wallets that are loaded with their registrations, by ascending id. -/
  wallets : List (WalletId × Nat) := []

/-- What an operation pauses for. -/
inductive Wait where
  /-- An answer that is there as soon as it is asked for. -/
  | answer
  /-- A look at something shared. It is always granted and takes a unit of the turn. -/
  | look
  /-- A turn that is not used up. -/
  | room
  /-- Everybody else who can go on. -/
  | turn
  /-- A call to be let in. -/
  | admission (engine : Nat) (call : Call)
  /-- The refresh lock of a registration. -/
  | lock (registration ticket : Nat)
  deriving DecidableEq, Repr

namespace Registry

variable {ε : Type} {α : Type}

/-- A registry without wallets, unless the configuration is no good. -/
def new (config : Config) : Outcome (Registry ε) := do
  config.validate
  return { config }

/-- The number of a wallet's registration. -/
def key? (s : Registry ε) (w : WalletId) : Option Nat :=
  s.wallets.lookup w

/-- A wallet's registration. -/
def registration? (s : Registry ε) (w : WalletId) : Option Registration := do
  s.registrations[← s.key? w]?

/-- A wallet's accounts as of its last refresh. -/
def snapshot? (s : Registry ε) (w : WalletId) : Option Accounts := do
  (← s.registration? w).snapshot

/-- Enters a wallet before the first one with a greater id. -/
def insertWallet (w : WalletId) (key : Nat) : List (WalletId × Nat) → List (WalletId × Nat)
  | [] => [(w, key)]
  | e :: rest => if w < e.1 then (w, key) :: e :: rest else e :: insertWallet w key rest

/-- Adds a registration for a wallet. -/
def add (s : Registry ε) (w : WalletId) (access : Access) : Registry ε :=
  { s with
    registrations := s.registrations ++ [{ access }]
    wallets := insertWallet w s.registrations.length s.wallets }

/-- Changes a registration. -/
def modifyRegistration (s : Registry ε) (key : Nat) (f : Registration → Registration) :
    Registry ε :=
  { s with registrations := s.registrations.modify key f }

/-- Takes a ticket out of every line, and with it out of the lock it may hold. -/
def leave (s : Registry ε) (ticket : Nat) : Registry ε :=
  { s with
    registrations := s.registrations.map fun r => { r with line := r.line.filter (· ≠ ticket) } }

/-- Whether a wait is over. A new turn can be taken at any time. -/
def isOver [Engine ε] (s : Registry ε) : Wait → Bool
  | .answer | .look | .room | .turn => true
  | .admission engine call =>
    match s.engines[engine]? with
    | some e => Engine.admits call e
    | none => true
  | .lock key ticket =>
    match s.registrations[key]? with
    | some r => r.line.head? = some ticket
    | none => true

/-! ## Operations -/

/-- An operation on the registry, in turns. It may fail, and what it has changed
by then stays changed. -/
abbrev Op (ε α : Type) := ExceptT Failure (Flow Wait (Registry ε)) α

/-- Ends an operation with an outcome. -/
def conclude (o : Outcome α) : Op ε α :=
  ExceptT.mk (pure o)

/-- Carries an operation out and keeps its outcome, failure or not. -/
def attempt (x : Op ε α) : Op ε (Outcome α) :=
  ExceptT.lift x.run

/-- Waits, then goes on. -/
def pauseFor (wait : Wait) : Op ε Unit :=
  ExceptT.lift (Flow.pause wait)

/-- The number and the registration of a loaded wallet. -/
def entry (w : WalletId) : Op ε (Nat × Registration) := do
  pauseFor .look
  let s ← get
  match s.key? w, s.registration? w with
  | some key, some r => return (key, r)
  | _, _ => throw (.notFound (.wallet w))

/-- How a loaded wallet is reached. -/
def access (w : WalletId) : Op ε Access := do
  return (← entry w).2.access

/-- Loads a wallet with an engine of its own, and answers the engine's number. -/
def load [Engine ε] (w : WalletId) (engine : ε) : Op ε Nat := do
  pauseFor .look
  let s ← get
  if (s.key? w).isSome then throw (.walletExists w)
  let number := s.engines.length
  let access : Access := ⟨number, Engine.asset engine, s.config.network⟩
  set ({ s with engines := s.engines ++ [engine] }.add w access)
  return number

/-- Loads a wallet that shares the engine of another one. -/
def share (w other : WalletId) : Op ε Unit := do
  let access ← access other
  pauseFor .look
  if ((← get).key? w).isSome then throw (.walletExists w)
  modify (·.add w access)

/-- Forgets a wallet. Work under way on its registration goes on unseen. -/
def remove (w : WalletId) : Op ε Unit := do
  pauseFor .look
  let s ← get
  if (s.key? w).isNone then throw (.notFound (.wallet w))
  set { s with wallets := s.wallets.filter (·.1 ≠ w) }

/-- The ids of the loaded wallets, ascending. -/
def walletIds : Op ε (List WalletId) := do
  pauseFor .look
  return (← get).wallets.map (·.1)

end Registry

end Purse
