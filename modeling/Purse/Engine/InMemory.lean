import Purse.Engine

/-!
# Engines held in memory

A complete wallet engine without chain or keys: accounts, balances and outputs
are what they are set to. How many keys an account has is known by its number, so
an account that is created under a number comes with the number's keys. An engine
serves either asset. A Bitcoin engine gives way once before it lists its accounts,
counts how many listings ran at the same time, and keeps account names apart; a
Decred engine runs a mixer. Both start locked and count the calls that reach them.
-/

namespace Purse

/-- How many keys of an account are in use. -/
structure KeyCounts where
  external : UInt32 := 0
  internal : UInt32 := 0
  imported : UInt32 := 0
  deriving DecidableEq, Repr, Inhabited

/-- An account with its balance and outputs. -/
structure StoredAccount where
  number : UInt32
  name : String
  balance : ReportedBalance
  unspent : List ReportedOutput := []
  deriving DecidableEq, Repr, Inhabited

/-- How often an engine was called. -/
structure CallCounts where
  calls : Nat := 0
  listings : Nat := 0
  /-- Listings that have entered and are not answered. -/
  listingsNow : Nat := 0
  /-- The most listings there ever were at the same time. -/
  listingsAtOnce : Nat := 0
  newAccounts : Nat := 0
  locks : Nat := 0
  deriving DecidableEq, Repr, Inhabited

/-- A wallet engine held in memory. -/
structure InMemoryEngine where
  asset : Asset
  accounts : List StoredAccount := []
  /-- The keys of the accounts by number; there are none under other numbers. -/
  keys : List (UInt32 × KeyCounts) := []
  blockHash : Digest
  blockHeight : Int32
  passphrase : String := "passphrase"
  mixed : Option UInt32 := none
  unmixed : Option UInt32 := none
  locked : Bool := true
  mixerRunning : Bool := false
  /-- The account whose balance cannot be had at the moment. -/
  failingBalance : Option UInt32 := none
  /-- Whether outputs cannot be listed at the moment. -/
  failingUnspent : Bool := false
  counts : CallCounts := {}
  deriving Repr

namespace InMemoryEngine

/-! ## Accounts -/

/-- The first account with the number. -/
def account? (e : InMemoryEngine) (number : UInt32) : Option StoredAccount :=
  e.accounts.find? (·.number = number)

/-- The first account with the name. -/
def named? (e : InMemoryEngine) (name : String) : Option StoredAccount :=
  e.accounts.find? (·.name = name)

/-- How an account that does not exist is called. -/
def noAccount (number : UInt32) : EngineError :=
  .missing s!"account {number}"

/-- Changes the first account with the number. -/
def modifyAccount (e : InMemoryEngine) (number : UInt32) (f : StoredAccount → StoredAccount) :
    InMemoryEngine :=
  { e with accounts := e.accounts.modify (e.accounts.findIdx (·.number = number)) f }

/-- The balance of a new account. -/
def zeroBalance : Asset → ReportedBalance
  | .btc => .units 0 0 0
  | .dcr => .signed 0 0 0 0 0 0 0

/-- The numbers that a new account has to stay above. A Bitcoin engine leaves out
the account of imported keys. -/
def numbersInUse (e : InMemoryEngine) : List UInt32 :=
  match e.asset with
  | .btc => (e.accounts.map (·.number)).filter (· ≠ importedAccount)
  | .dcr => e.accounts.map (·.number)

/-- The number of a new account. A Bitcoin engine takes the one after the greatest number in
use, a Decred engine the greatest of those after a number in use. The two differ where no
number comes after the greatest one. -/
def nextNumber (e : InMemoryEngine) : UInt32 :=
  match e.asset with
  | .btc => (e.numbersInUse.max?.map (· + 1)).getD 0
  | .dcr => (e.numbersInUse.map (· + 1)).max?.getD 0

/-- Adds an account without funds. -/
def addAccount (e : InMemoryEngine) (name : String) : InMemoryEngine :=
  let account : StoredAccount := {
    number := e.nextNumber
    name
    balance := zeroBalance e.asset }
  { e with accounts := e.accounts ++ [account] }

/-! ## Answers -/

def count (e : InMemoryEngine) (f : CallCounts → CallCounts) : InMemoryEngine :=
  { e with counts := f e.counts }

def lock (e : InMemoryEngine) : InMemoryEngine :=
  { e.count fun n => { n with locks := n.locks + 1 } with locked := true }

/-- A call is counted as it comes in. -/
def countCall (c : Call) (e : InMemoryEngine) : InMemoryEngine :=
  let e := e.count fun n => { n with calls := n.calls + 1 }
  match c, e.asset with
  | .accounts _, .btc =>
    e.count fun n =>
      { n with
        listings := n.listings + 1
        listingsNow := n.listingsNow + 1
        listingsAtOnce := max n.listingsAtOnce (n.listingsNow + 1) }
  | .nextAccount _ _, .btc => e.count fun n => { n with newAccounts := n.newAccounts + 1 }
  | _, _ => e

/-- Listings of a Bitcoin engine give way. The accounts are looked at for every call
that is about them, unless it is refused before that. -/
def passage (e : InMemoryEngine) : Call → Passage
  | .accounts _ => { givesWay := e.asset = .btc, looks := true }
  | .unspent _ _ => { looks := !e.failingUnspent }
  | .nextAccount _ _ => { looks := !e.locked }
  | .balance _ _ | .renameAccount _ _ _ | .accountName _ _ | .accountNumber _ _ => { looks := true }
  | .unlock _ | .lock | .mixerActive | .startMixer _ | .stopMixer => {}

/-- A call is counted and then takes its way. -/
def enter (c : Call) (e : InMemoryEngine) : Passage × InMemoryEngine :=
  (e.passage c, e.countCall c)

/-- What a listing says of an account. -/
def info (e : InMemoryEngine) (a : StoredAccount) : AccountInfo :=
  let keys := (e.keys.lookup a.number).getD {}
  ⟨a.number, a.name, keys.external, keys.internal, keys.imported⟩

def listing (e : InMemoryEngine) : AccountListing :=
  ⟨e.accounts.map e.info, e.blockHash, e.blockHeight⟩

def balanceOf (e : InMemoryEngine) (number : UInt32) : Except EngineError ReportedBalance :=
  if e.failingBalance = some number then
    match e.asset with
    | .btc => .error (.failed s!"balance of account {number} unavailable")
    | .dcr => .error (.failed "rpc timeout")
  else
    match e.account? number with
    | some account => .ok account.balance
    | none => .error (noAccount number)

/-- A name that nobody bears has no outputs. -/
def unspentOf (e : InMemoryEngine) (name : String) : Except EngineError (List ReportedOutput) :=
  if e.failingUnspent then
    match e.asset with
    | .btc => .error (.failed "listunspent failed")
    | .dcr => .error (.failed "unspent outputs unavailable")
  else .ok ((e.named? name).map (·.unspent) |>.getD [])

/-- Only a Bitcoin engine minds a name that is taken. -/
def newAccount (e : InMemoryEngine) (name : String) : Except EngineError UInt32 × InMemoryEngine :=
  if e.locked then (.error .locked, e)
  else if e.asset = .btc ∧ (e.named? name).isSome then
    (.error (.failed ("account " ++ name ++ " exists")), e)
  else (.ok e.nextNumber, e.addAccount name)

def rename (e : InMemoryEngine) (number : UInt32) (name : String) :
    Except EngineError Unit × InMemoryEngine :=
  match e.account? number with
  | some _ => (.ok (), e.modifyAccount number fun a => { a with name })
  | none => (.error (noAccount number), e)

/-- Does something if the passphrase is right. -/
def withPassphrase (e : InMemoryEngine) (passphrase : String) (f : InMemoryEngine → InMemoryEngine) :
    Except EngineError Unit × InMemoryEngine :=
  if passphrase = e.passphrase then (.ok (), f e) else (.error (.failed "invalid passphrase"), e)

/-- The answer to a call that has entered. There is one scope of accounts only, and outputs are
listed at whatever depth. -/
def answer (c : Call) (e : InMemoryEngine) : Except EngineError c.Answer × InMemoryEngine :=
  match c with
  | .accounts _ => (.ok e.listing, e.count fun n => { n with listingsNow := n.listingsNow - 1 })
  | .balance number _ => (e.balanceOf number, e)
  | .unspent _ name => (e.unspentOf name, e)
  | .nextAccount _ name => e.newAccount name
  | .renameAccount _ number name => e.rename number name
  | .accountName _ number =>
    match e.account? number with
    | some account => (.ok account.name, e)
    | none => (.error (noAccount number), e)
  | .accountNumber _ name =>
    match e.named? name with
    | some account => (.ok account.number, e)
    | none => (.error (.missing name), e)
  | .unlock passphrase => e.withPassphrase passphrase fun e => { e with locked := false }
  | .lock => (.ok (), e.lock)
  | .mixerActive => (.ok e.mixerRunning, e)
  | .startMixer passphrase => e.withPassphrase passphrase fun e => { e with mixerRunning := true }
  | .stopMixer => (.ok (), { e with mixerRunning := false })

instance : Engine InMemoryEngine where
  asset := InMemoryEngine.asset
  isLocked := InMemoryEngine.locked
  mixedAccount := InMemoryEngine.mixed
  unmixedAccount := InMemoryEngine.unmixed
  lock := InMemoryEngine.lock
  receive _ e := (none, e)
  admits _ _ := true
  enter := InMemoryEngine.enter
  answer := InMemoryEngine.answer

end InMemoryEngine

end Purse
