/-!
# Event buses

Everyone who listens to a bus gets every event that is sent afterwards, at his
own pace. The bus keeps only the newest events, `slots` of them; whoever falls
further behind is told how many events he missed and goes on with the oldest one
still kept. Once all senders are gone, a receiver gets what is kept for it and
then learns that the bus is closed.
-/

namespace Purse

/-- A bus, with its receivers and where they are. -/
structure EventBus (α : Type) where
  slots : Nat
  /-- The newest events, the oldest of them first. -/
  buffer : List α := []
  /-- How many events were ever sent. -/
  sent : Nat := 0
  senders : Nat := 1
  /-- Each receiver with the number of events before its next one. -/
  receivers : List (Nat × Nat) := []
  nextReceiver : Nat := 0
  deriving Repr

/-- What a receiver finds. -/
inductive Receipt (α : Type) where
  | event (value : α)
  /-- So many events are gone for this receiver. -/
  | lagged (missed : Nat)
  | closed
  /-- Nothing yet. -/
  | empty
  deriving DecidableEq, Repr

/-- How a receiver is told that something went wrong. -/
def Receipt.errorMessage? {α : Type} : Receipt α → Option String
  | lagged missed => some s!"receiver lagged, {missed} events dropped"
  | closed => some "event bus closed"
  | event _ | empty => none

namespace EventBus

variable {α : Type}

/-- A bus that keeps at least `capacity` events, and at least one: the number of
slots is a power of two. -/
def new (capacity : Nat) : EventBus α :=
  { slots := (max capacity 1).nextPowerOfTwo }

/-- The capacity of a bus for which none is given. -/
def defaultCapacity : Nat := 1024

/-- Sends one event. -/
def send (b : EventBus α) (event : α) : EventBus α :=
  let buffer := b.buffer ++ [event]
  { b with buffer := buffer.drop (buffer.length - b.slots), sent := b.sent + 1 }

/-- Sends events in order. -/
def emit (b : EventBus α) (events : List α) : EventBus α :=
  events.foldl send b

/-- A new receiver, for the events from now on. -/
def subscribe (b : EventBus α) : Nat × EventBus α :=
  (b.nextReceiver,
    { b with
      receivers := b.receivers ++ [(b.nextReceiver, b.sent)]
      nextReceiver := b.nextReceiver + 1 })

/-- Removes a receiver. -/
def unsubscribe (b : EventBus α) (receiver : Nat) : EventBus α :=
  { b with receivers := b.receivers.filter (·.1 ≠ receiver) }

def receiverCount (b : EventBus α) : Nat :=
  b.receivers.length

def addSender (b : EventBus α) : EventBus α :=
  { b with senders := b.senders + 1 }

def dropSender (b : EventBus α) : EventBus α :=
  { b with senders := b.senders - 1 }

/-- Moves a receiver to an event. -/
def seek (b : EventBus α) (receiver position : Nat) : EventBus α :=
  { b with
    receivers := b.receivers.map fun r => if r.1 = receiver then (receiver, position) else r }

/-- The number of the oldest event kept. -/
def oldest (b : EventBus α) : Nat :=
  b.sent - b.buffer.length

/-- How many events a receiver has not seen, missed ones included. -/
def unread (b : EventBus α) (receiver : Nat) : Nat :=
  b.sent - (b.receivers.lookup receiver).getD b.sent

/-- What a receiver finds, without taking it. -/
def peek (b : EventBus α) (receiver : Nat) : Receipt α :=
  match b.receivers.lookup receiver with
  | none => .closed
  | some position =>
    if position < b.oldest then .lagged (b.oldest - position)
    else match b.buffer[position - b.oldest]? with
      | some event => .event event
      | none => if b.senders = 0 then .closed else .empty

/-- Whether a receiver finds anything. -/
def hasNews (b : EventBus α) (receiver : Nat) : Bool :=
  match b.peek receiver with
  | .empty => false
  | _ => true

/-- What a receiver finds, taken. -/
def receive (b : EventBus α) (receiver : Nat) : Receipt α × EventBus α :=
  match b.peek receiver with
  | .event event =>
    (.event event, b.seek receiver (((b.receivers.lookup receiver).getD 0) + 1))
  | .lagged missed => (.lagged missed, b.seek receiver b.oldest)
  | receipt => (receipt, b)

/-- The next event kept, past any that were missed. -/
def tryReceive (b : EventBus α) (receiver : Nat) : Option α × EventBus α :=
  let b := match b.peek receiver with
    | .lagged _ => b.seek receiver b.oldest
    | _ => b
  match b.receive receiver with
  | (.event event, b) => (some event, b)
  | (_, b) => (none, b)

/-- Everything kept for a receiver. -/
def drain (b : EventBus α) (receiver : Nat) : List α × EventBus α :=
  match b.receivers.lookup receiver with
  | none => ([], b)
  | some position => (b.buffer.drop (position - b.oldest), b.seek receiver b.sent)

end EventBus

end Purse
