import Purse.Engine.Report
import Purse.Registry
import Purse.Sizing

/-!
# Reaching a wallet's engine

Every operation on a wallet goes through these. They ask the engine, turn its
refusals into failures and check what it reports. Accounts are always listed with
their look-ahead added. A new account is asked for only while the wallet is
unlocked, and `whileUnlocked` locks it again whatever happens in between.
-/

namespace Purse.Registry

variable {ε : Type} [Engine ε] {α : Type}

/-! ## Calls -/

/-- Lets an engine do something; `missing` is answered where there is none. -/
def onEngine (number : Nat) (missing : α) (f : ε → α × ε) : Flow Wait (Registry ε) α :=
  modifyGet fun s =>
    match s.engines[number]? with
    | none => (missing, s)
    | some e =>
      let (a, e) := f e
      (a, { s with engines := s.engines.set number e })

/-- The refusal of an engine that does not exist. -/
def noEngine : EngineError :=
  .failed "no engine"

/-- Asks an engine: the call arrives, is let in, takes its passage and is answered. -/
def ask (engine : Nat) (c : Call) : Flow Wait (Registry ε) (Except EngineError c.Answer) := do
  let refusal ← onEngine engine (some noEngine) (Engine.receive c)
  Flow.pause (.admission engine c)
  match refusal with
  | some e => return .error e
  | none =>
    let passage ← onEngine engine {} (Engine.enter c)
    if passage.givesWay then Flow.pause .turn
    Flow.pause (if passage.looks then .look else .answer)
    onEngine engine (.error noEngine) (Engine.answer c)

/-- Asks a wallet's engine; a refusal is a failure. -/
def call (a : Access) (c : Call) : Op ε c.Answer :=
  ExceptT.mk do return (← ask a.engine c).mapError Failure.ofEngine

/-- Takes over what an engine reports. -/
def accept (report : Except BadAnswer α) : Op ε α :=
  conclude (report.mapError Failure.backend)

/-- What can be seen of a wallet's engine without a call. -/
def look (a : Access) (missing : α) (f : ε → α) : Op ε α := do
  return ((← get).engines[a.engine]?.map f).getD missing

/-! ## Accounts -/

/-- The accounts in the engine's order, with their look-ahead. -/
def listAccounts (a : Access) : Op ε AccountListing := do
  let listing ← call a (.accounts a.scope)
  return { listing with accounts := listing.accounts.map AccountInfo.lookAhead }

def accountBalance (a : Access) (account confirmations : UInt32) : Op ε Balance := do
  accept (← call a (.balance account confirmations)).toBalance

/-- The unspent outputs of the account that bears the name, under the number
given. -/
def listUnspent (a : Access) (account : UInt32) (name : String) : Op ε (List UnspentOutput) := do
  accept (outputsOfReport account (← call a (.unspent a.depths name)))

def isLocked (a : Access) : Op ε Bool :=
  look a true Engine.isLocked

/-- A new account, refused without a call while the wallet is locked. -/
def newAccount (a : Access) (name : String) : Op ε UInt32 := do
  if ← isLocked a then throw .walletLocked
  call a (.nextAccount a.scope name)

/-! ## Locking -/

def unlock (a : Access) (passphrase : String) : Op ε Unit :=
  call a (.unlock passphrase)

def lock (a : Access) : Op ε Unit :=
  ExceptT.lift (onEngine a.engine () fun e => ((), Engine.lock e))

/-- Unlocks the wallet, does something and locks the wallet again, also after a
failure. If the wallet cannot be unlocked, nothing more happens. -/
def whileUnlocked (a : Access) (passphrase : String) (body : Op ε α) : Op ε α := do
  unlock a passphrase
  let outcome ← attempt body
  lock a
  conclude outcome

/-! ## Mixing -/

/-- The accounts between which the wallet mixes, if it can mix at all. -/
def mixerAccounts (a : Access) : Op ε (Option MixerAccounts) :=
  match a.asset with
  | .btc => return none
  | .dcr => look a none Engine.mixerAccounts

def isMixerActive (a : Access) : Op ε Bool :=
  match a.asset with
  | .btc => return false
  | .dcr => call a .mixerActive

def startMixer (a : Access) (passphrase : String) : Op ε Unit := do
  match a.asset with
  | .btc => throw (.unavailable (.mixing .btc))
  | .dcr =>
    if (← mixerAccounts a).isNone then throw (.unavailable .mixerAccounts)
    call a (.startMixer passphrase)

def stopMixer (a : Access) : Op ε Unit :=
  match a.asset with
  | .btc => throw (.unavailable (.mixing .btc))
  | .dcr => call a .stopMixer

/-! ## Sizes -/

/-- How transactions of the wallet are sized. -/
def sizing (a : Access) : Op ε Sizing := do
  return a.asset.sizing (← get).config.feeOutputs

end Purse.Registry
