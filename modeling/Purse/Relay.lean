import Purse.EventBus
import Purse.Notification
import Purse.Registry.Accounts

/-!
# The notification relay

A page that shows a wallet subscribes to the wallet's notifications under the
page's name. For every notification that matters the listener behind the
subscription starts a refresh, and when a refresh is done, the pages are told what
changed. A listener that missed notifications refreshes once for all of them.

A name is taken by one subscription at a time. Subscriptions are numbered and
numbers are never used again, so an old one that ends late cannot free the name
for a newer one's page. Cancelling a subscription ends its listener and abandons
the refreshes it has started, wherever they wait.

`step` carries the work forward by the least amount after which something else
may happen: one receipt of a listener, or what a refresh does up to its next pause.
-/

namespace Purse

/-- Where notifications of wallets come from. -/
structure Source where
  bus : EventBus Notification
  /-- Whether it refuses new listeners. -/
  refusing : Bool := false
  /-- How many listeners it ever accepted. -/
  subscriptions : Nat := 0

/-- A source that keeps at least so many notifications. -/
def Source.new (capacity : Nat) : Source :=
  { bus := .new capacity }

/-- How far a listener has come. -/
inductive Listening where
  | going
  /-- It has left its source and still has to free the name of its page. -/
  | leaving
  | ended
  deriving DecidableEq, Repr

/-- A subscription and the listener behind it. -/
structure Listener where
  page : String
  wallet : WalletId
  source : Nat
  receiver : Nat
  cancelled : Bool := false
  listening : Listening := .going
  /-- Whether the mixer has finished since this was last asked. -/
  mixerCompleted : Bool := false
  deriving DecidableEq, Repr

/-- Why a listener refreshes. -/
inductive RefreshReason where
  | transaction
  | mixer
  /-- Notifications were missed. -/
  | resync
  deriving DecidableEq, Repr

/-- Work that goes on beside the pages. -/
inductive Job (ε : Type) where
  | listen (subscription : Nat)
  /-- A refresh for a subscription, with what it waits for and how it goes on. -/
  | refresh (subscription : Nat) (wait : Wait)
      (resume : Registry ε → Turns Wait (Registry ε) (List ViewEvent))

/-- The subscription for which a job is done. -/
def Job.subscription {ε : Type} : Job ε → Nat
  | listen subscription => subscription
  | refresh subscription _ _ => subscription

/-- The relay with the registry that it refreshes. -/
structure Relay (ε : Type) where
  registry : Registry ε
  views : EventBus ViewEvent
  sources : List Source := []
  /-- The names that are taken, with the subscriptions that took them. -/
  pages : List (String × Nat) := []
  /-- All subscriptions ever made, by number. -/
  listeners : List Listener := []
  /-- The work under way, in the order in which it was started. -/
  jobs : List (Nat × Job ε) := []
  /-- The next number for a job; it also serves as a refresh ticket. -/
  nextJob : Nat := 0

/-- Whether a wallet's mixer is running. -/
def Registry.mixerActive {ε : Type} [Engine ε] (w : WalletId) : Registry.Op ε Bool := do
  isMixerActive (← access w)

namespace Relay

variable {ε : Type}

/-- A relay over a registry, with views as large as its configuration says. -/
def new (registry : Registry ε) : Relay ε :=
  { registry, views := .new registry.config.eventCapacity }

/-! ## Subscriptions -/

/-- Takes an unused number for a job. -/
def takeNumber (r : Relay ε) : Nat × Relay ε :=
  (r.nextJob, { r with nextJob := r.nextJob + 1 })

/-- Starts a job. -/
def start (r : Relay ε) (job : Nat → Job ε) : Relay ε :=
  let (number, r) := r.takeNumber
  { r with jobs := r.jobs ++ [(number, job number)] }

/-- Ends a job. -/
def finish (r : Relay ε) (number : Nat) : Relay ε :=
  { r with jobs := r.jobs.filter (·.1 ≠ number) }

/-- Whether a page's name is taken. -/
def isRegistered (r : Relay ε) (page : String) : Bool :=
  (r.pages.lookup page).isSome

def modifyListener (r : Relay ε) (subscription : Nat) (f : Listener → Listener) : Relay ε :=
  { r with listeners := r.listeners.modify subscription f }

def modifySource (r : Relay ε) (source : Nat) (f : Source → Source) : Relay ε :=
  { r with sources := r.sources.modify source f }

/-- Subscribes a page to a wallet's notifications and answers the number of the
subscription. Nothing happens if the name is taken or the source refuses. -/
def register (r : Relay ε) (page : String) (wallet : WalletId) (source : Nat) :
    Option Nat × Relay ε :=
  match r.pages.lookup page, r.sources[source]? with
  | none, some s =>
    if s.refusing then (none, r)
    else
      let (receiver, bus) := s.bus.subscribe
      let subscription := r.listeners.length
      let listener : Listener := { page, wallet, source, receiver }
      let r := r.modifySource source fun s =>
        { s with bus, subscriptions := s.subscriptions + 1 }
      let r := { r with
        pages := (page, subscription) :: r.pages
        listeners := r.listeners ++ [listener] }
      (some subscription, r.start fun _ => .listen subscription)
  | _, _ => (none, r)

/-- Frees the name that a subscription took, unless another one has it by now. -/
def release (r : Relay ε) (subscription : Nat) : Relay ε :=
  { r with pages := r.pages.filter (·.2 ≠ subscription) }

/-- Tells a listener and its refreshes to end. -/
def cancel (r : Relay ε) (subscription : Nat) : Relay ε :=
  r.modifyListener subscription fun l => { l with cancelled := true }

/-- Ends whatever listens under a page's name. -/
def deregister (r : Relay ε) (page : String) : Bool × Relay ε :=
  match r.pages.lookup page with
  | none => (false, r)
  | some subscription =>
    let r := { r with pages := r.pages.filter (·.1 ≠ page) }
    (true, r.cancel subscription)

/-- Gives a subscription up. Its name is free at once. -/
def unsubscribe (r : Relay ε) (subscription : Nat) : Relay ε :=
  (r.cancel subscription).release subscription

/-- Whether the mixer has finished since this was last asked. -/
def takeMixerCompleted (r : Relay ε) (subscription : Nat) : Bool × Relay ε :=
  ((r.listeners[subscription]?.map (·.mixerCompleted)).getD false,
    r.modifyListener subscription fun l => { l with mixerCompleted := false })

/-! ## Sources -/

/-- Adds a source and answers its number. -/
def addSource (r : Relay ε) (s : Source) : Nat × Relay ε :=
  (r.sources.length, { r with sources := r.sources ++ [s] })

/-- Announces notifications to all listeners of a source. -/
def announce (r : Relay ε) (source : Nat) (notifications : List Notification) : Relay ε :=
  r.modifySource source fun s => { s with bus := s.bus.emit notifications }

/-- No more notifications will come from the source. -/
def closeSource (r : Relay ε) (source : Nat) : Relay ε :=
  r.modifySource source fun s => { s with bus := s.bus.dropSender }

/-! ## Refreshing -/

variable [Engine ε]

/-- A refresh of a wallet, and what the pages are told about it. -/
def refreshEvents (ticket : Nat) (w : WalletId) (reason : RefreshReason) :
    Flow Wait (Registry ε) (List ViewEvent) := do
  match ← (Registry.refresh ticket w).run with
  | .error e => return [.refreshFailed w e.message]
  | .ok _ =>
    match reason with
    | .transaction | .resync => return [.accountsRefreshed w, .transactionsChanged w]
    | .mixer =>
      match ← (Registry.mixerActive w).run with
      | .ok running => return [.accountsRefreshed w, .mixerStateChanged w running]
      | .error e => return [.accountsRefreshed w, .refreshFailed w e.message]

/-- Starts a refresh for a subscription. -/
def startRefresh (r : Relay ε) (subscription : Nat) (w : WalletId) (reason : RefreshReason) :
    Relay ε :=
  r.start fun ticket => .refresh subscription .answer (refreshEvents ticket w reason)

/-- What a listener does about a notification of its wallet. -/
def dispatch (r : Relay ε) (subscription : Nat) (w : WalletId) (n : Notification) : Relay ε :=
  if n.wallet ≠ w then r
  else
    match n with
    | .newTransaction _ _ => r.startRefresh subscription w .transaction
    | .blockAttached _ _ => r
    | .mixerStarted _ => r.startRefresh subscription w .mixer
    | .mixerEnded _ =>
      (r.modifyListener subscription fun l => { l with mixerCompleted := true }).startRefresh
        subscription w .mixer

/-! ## Steps -/

/-- A listener leaves its source. -/
def detach (r : Relay ε) (subscription : Nat) (l : Listener) : Relay ε :=
  let r := r.modifySource l.source fun s => { s with bus := s.bus.unsubscribe l.receiver }
  r.modifyListener subscription fun l => { l with listening := .leaving }

/-- A listener that has left frees its page's name and ends. -/
def stop (r : Relay ε) (job subscription : Nat) : Relay ε :=
  let r := r.modifyListener subscription fun l => { l with listening := .ended }
  (r.release subscription).finish job

/-- A listener takes one receipt from its source, if there is one. It ends in two
steps, `detach` and `stop`. -/
def hear (r : Relay ε) (job subscription : Nat) : Relay ε :=
  match r.listeners[subscription]? with
  | none => r.finish job
  | some l =>
    match l.listening with
    | .ended => r.finish job
    | .leaving => r.stop job subscription
    | .going =>
      if l.cancelled then r.detach subscription l
      else
        match r.sources[l.source]? with
        | none => r.detach subscription l
        | some s =>
          match s.bus.receive l.receiver with
          | (.event n, bus) =>
            (r.modifySource l.source fun s => { s with bus }).dispatch subscription l.wallet n
          | (.lagged _, bus) =>
            (r.modifySource l.source fun s => { s with bus }).startRefresh subscription l.wallet
              .resync
          | (.closed, _) => r.detach subscription l
          | (.empty, _) => r

/-- Whether a subscription has been cancelled. -/
def isCancelled (r : Relay ε) (subscription : Nat) : Bool :=
  match r.listeners[subscription]? with
  | some l => l.cancelled
  | none => true

/-- A refresh ends without effect; its place in line is free. -/
def abandon (r : Relay ε) (job : Nat) : Relay ε :=
  { r with registry := r.registry.leave job }.finish job

/-- Takes over how far a refresh has come. -/
def advance (r : Relay ε) (job subscription : Nat)
    (left : Turns Wait (Registry ε) (List ViewEvent)) : Relay ε :=
  match left with
  | .done events registry => { r with registry, views := r.views.emit events }.finish job
  | .pause wait registry resume =>
    { r with
      registry
      jobs := r.jobs.map fun j =>
        if j.1 = job then (job, .refresh subscription wait resume) else j }

/-- Whether a job would do something now. -/
def canStep (r : Relay ε) : Job ε → Bool
  | .listen subscription =>
    match r.listeners[subscription]? with
    | none => true
    | some l =>
      l.listening ≠ .going || l.cancelled ||
        match r.sources[l.source]? with
        | none => true
        | some s => s.bus.hasNews l.receiver
  | .refresh subscription wait _ => r.isCancelled subscription || r.registry.isOver wait

/-- Whether the listener of a subscription has not ended yet. -/
def isListening (r : Relay ε) (subscription : Nat) : Bool :=
  match r.listeners[subscription]? with
  | some l => l.listening ≠ .ended
  | none => false

/-- One step of a job: one receipt of a listener, or what a refresh does up to its
next pause. A job that has to wait does nothing. -/
def step (r : Relay ε) (job : Nat) : Relay ε :=
  match r.jobs.lookup job with
  | none => r
  | some (.listen subscription) => r.hear job subscription
  | some (.refresh subscription wait resume) =>
    if r.isCancelled subscription then r.abandon job
    else if r.registry.isOver wait then r.advance job subscription (resume r.registry)
    else r

end Relay

end Purse
