import Purse.Account
import Purse.Failure
import Purse.Output

/-!
# Wallet engines

A wallet engine keeps the keys of one wallet and follows its chain. It is reached
through calls: a call first arrives (`receive`), may have to wait to be let in
(`admits`), then enters (`enter`) and is answered (`answer`), with a `Passage` in
between. Nothing else is assumed of engines, so what is proved of the operations
above them holds however an engine answers.

Engines state balances and amounts in their asset's own way. `Reported` types are
those statements, still unchecked.
-/

namespace Purse

/-! ## What engines report -/

/-- The balance of an account as an engine states it. -/
inductive ReportedBalance where
  /-- Bitcoin: whole units. -/
  | units (total spendable immature : UInt64)
  /-- Decred: signed units, with immature rewards by kind. -/
  | signed (total spendable coinbase stake tickets voting unconfirmed : Int64)
  deriving DecidableEq, Repr, Inhabited

/-- The amount of an output as an engine states it. -/
inductive ReportedAmount where
  /-- Bitcoin: coins, in double precision. -/
  | coins (value : Double)
  /-- Decred: signed units. -/
  | signed (units : Int64)
  deriving DecidableEq, Repr, Inhabited

/-- What only the engines of one asset say of an unspent output, or say in their own way. -/
inductive ReportedDetails where
  | btc (coins : Double) (redeemScript : Option String) (confirmations : Int64) (spendable : Bool)
  | dcr (units : Int64) (confirmations : Int32)
  deriving DecidableEq, Repr, Inhabited

/-- An unspent output as an engine lists it. -/
structure ReportedOutput extends OutPoint where
  address : String
  script : String
  /-- Seconds since the start of 1970. -/
  received : Int64
  details : ReportedDetails
  deriving DecidableEq, Repr, Inhabited

namespace ReportedOutput

def amount (r : ReportedOutput) : ReportedAmount :=
  match r.details with
  | .btc coins _ _ _ => .coins coins
  | .dcr units _ => .signed units

def confirmations (r : ReportedOutput) : Int64 :=
  match r.details with
  | .btc _ _ confirmations _ => confirmations
  | .dcr _ confirmations => confirmations.toInt64

/-- No output of a Decred wallet has one. -/
def redeemScript (r : ReportedOutput) : Option String :=
  match r.details with
  | .btc _ redeemScript _ _ => redeemScript
  | .dcr _ _ => none

/-- A Decred engine lists only what it is able to spend. -/
def spendable (r : ReportedOutput) : Bool :=
  match r.details with
  | .btc _ _ _ spendable => spendable
  | .dcr _ _ => true

end ReportedOutput

/-- The accounts of a wallet as of one block, not yet priced. -/
structure AccountListing where
  accounts : List AccountInfo
  blockHash : Digest
  blockHeight : Int32
  deriving DecidableEq, Repr

/-! ## Calls -/

/-- The least and the greatest number of confirmations of the outputs that are listed. -/
structure Depths where
  least : Int32
  greatest : Int32
  deriving DecidableEq, Repr

/-- A call to a wallet engine. A Bitcoin engine has to be told where the accounts are derived
that a call is about, and how deep the outputs may lie that it is to list; a Decred engine is
told neither. -/
inductive Call where
  | accounts (scope : Option KeyScope)
  | balance (account confirmations : UInt32)
  | unspent (depths : Option Depths) (account : String)
  | nextAccount (scope : Option KeyScope) (name : String)
  | renameAccount (scope : Option KeyScope) (account : UInt32) (name : String)
  | accountName (scope : Option KeyScope) (account : UInt32)
  | accountNumber (scope : Option KeyScope) (name : String)
  | unlock (passphrase : String)
  | lock
  | mixerActive
  | startMixer (passphrase : String)
  | stopMixer
  deriving DecidableEq, Repr

/-- What a call is answered with when it succeeds. -/
abbrev Call.Answer : Call → Type
  | accounts _ => AccountListing
  | balance _ _ => ReportedBalance
  | unspent _ _ => List ReportedOutput
  | nextAccount _ _ => UInt32
  | renameAccount _ _ _ => Unit
  | accountName _ _ => String
  | accountNumber _ _ => UInt32
  | unlock _ => Unit
  | lock => Unit
  | mixerActive => Bool
  | startMixer _ => Unit
  | stopMixer => Unit

/-- What a call does between its entry and its answer. -/
structure Passage where
  /-- It gives way to everybody else. -/
  givesWay : Bool := false
  /-- It looks at something that the engine's callers share. -/
  looks : Bool := false
  deriving DecidableEq, Repr, Inhabited

/-- A wallet engine: a state that answers calls. -/
class Engine (ε : Type) where
  asset : ε → Asset
  isLocked : ε → Bool
  /-- The account that takes mixed coins, if one was chosen. -/
  mixedAccount : ε → Option UInt32
  /-- The account whose coins are mixed, if one was chosen. -/
  unmixedAccount : ε → Option UInt32
  /-- Locks the wallet, at once and always. -/
  lock : ε → ε
  /-- A call arrives. If it is going to be refused, this is where that is settled. -/
  receive : Call → ε → Option EngineError × ε
  /-- Whether a call that has arrived may go on. -/
  admits : Call → ε → Bool
  /-- The call is let in. -/
  enter : Call → ε → Passage × ε
  answer : (c : Call) → ε → Except EngineError c.Answer × ε

/-- The accounts between which an engine mixes, if both were chosen. -/
def Engine.mixerAccounts {ε : Type} [Engine ε] (e : ε) : Option MixerAccounts := do
  return ⟨← mixedAccount e, ← unmixedAccount e⟩

/-- A whole call with nobody in between. -/
def Engine.ask {ε : Type} [Engine ε] (c : Call) (e : ε) : Except EngineError c.Answer × ε :=
  match receive c e with
  | (some refusal, e) => (.error refusal, e)
  | (none, e) => answer c (enter c e).2

end Purse
