import Purse.Relay.Dispatcher

/-!
# Operations of pages

A page goes before all jobs and lets them have their turns only where it has to wait
itself or has used up its own. It goes on as soon as it can after a batch of turns. A
page that carries out several operations at once goes on with all of them each time,
beginning with another one.

A page waits no longer than until every job waits. An operation that could not go on
then is given up, and its place in line with it.
-/

namespace Purse

/-- An operation of a page: what it came to, or what it waits for. -/
inductive Strand (ε α : Type) where
  | finished (answer : α)
  | paused (wait : Wait) (resume : Registry ε → Turns Wait (Registry ε) α)

namespace Strand

variable {ε α : Type} [Engine ε]

def answer? : Strand ε α → Option α
  | finished answer => some answer
  | paused _ _ => none

/-- Whether an operation would go on in a new turn. -/
def canGoOn (r : Relay ε) : Strand ε α → Bool
  | finished _ => false
  | paused wait _ => r.registry.isOver wait

end Strand

namespace Dispatcher

variable {ε α : Type} [Engine ε]

/-! ## Waiting -/

/-- The page waits for something that jobs may bring about. Its next turn is a new
one. -/
def waitFor (enough : Relay ε → Bool) (d : Dispatcher ε) : Dispatcher ε :=
  let d := d.round
  { runUntil enough (budget d.relay) d with units := fullTurn }

/-- The page gives way if it has used up its turn. -/
def ensureUnit (d : Dispatcher ε) : Dispatcher ε :=
  if d.units = 0 then d.waitFor fun _ => true else d

/-- The page takes a look at something shared. -/
def look (d : Dispatcher ε) : Dispatcher ε :=
  let d := d.ensureUnit
  { d with units := d.units - 1 }

/-- Changes the relay; whoever can go on after that lines up. -/
def change (d : Dispatcher ε) (f : Relay ε → Relay ε) : Dispatcher ε :=
  d.update (f d.relay)

/-- Changes the registry. -/
def setRegistry (d : Dispatcher ε) (registry : Registry ε) : Dispatcher ε :=
  d.change fun r => { r with registry }

/-! ## Operations on the registry -/

/-- Carries out an operation as far as the turn lasts. -/
def pursue : Turns Wait (Registry ε) α → Dispatcher ε → Strand ε α × Dispatcher ε
  | .done answer s, d => (.finished answer, d.setRegistry s)
  | .pause wait s resume, d =>
    let d := d.setRegistry s
    match s.pass wait d.units with
    | some units => pursue (resume s) { d with units }
    | none => (.paused wait resume, d)

/-- Goes on with an operation, if it can go on. -/
def ask (d : Dispatcher ε) : Strand ε α → Strand ε α × Dispatcher ε
  | .finished answer => (.finished answer, d)
  | .paused wait resume =>
    match d.relay.registry.passAnew wait d.units with
    | some units => pursue (resume d.relay.registry) { d with units }
    | none => (.paused wait resume, d)

/-- Goes on with several operations, one after the other. -/
def askAll (d : Dispatcher ε) : List (Strand ε α) → List (Strand ε α) × Dispatcher ε
  | [] => ([], d)
  | strand :: rest =>
    let (strand, d) := d.ask strand
    let (rest, d) := d.askAll rest
    (strand :: rest, d)

/-- Carries out several operations to the end, in at most so many turns. Each time
another one is asked first. -/
def attend : Nat → List (Strand ε α) → Dispatcher ε → Option (List α) × Dispatcher ε
  | 0, _, d => (none, d)
  | turns + 1, strands, d =>
    let (strands, d) := d.askAll strands
    match strands.mapM Strand.answer? with
    | some answers => (some answers, d)
    | none =>
      let canGoOn (r : Relay ε) := strands.any (·.canGoOn r)
      let d := d.waitFor canGoOn
      if canGoOn d.relay then
        let (answers, d) := attend turns strands.rotateLeft d
        (answers.map List.rotateRight, d)
      else (none, d)

/-- Takes a ticket for each of so many operations. -/
def takeTickets (d : Dispatcher ε) (count : Nat) : List Nat × Dispatcher ε :=
  let first := d.relay.nextJob
  ((List.range count).map (first + ·), { d with relay := { d.relay with nextJob := first + count } })

/-- Carries out operations of a page at once, each under a ticket of its own. There
is no answer where one of them would wait for ever. -/
def performAll (d : Dispatcher ε) (ops : List (Nat → Flow Wait (Registry ε) α)) :
    Option (List α) × Dispatcher ε :=
  let (tickets, d) := d.takeTickets ops.length
  let begun := List.zipWith (fun op ticket => op ticket) ops tickets
  let pauses := begun.map fun op => (op d.relay.registry).pauses + 1
  let strands := begun.map fun op => Strand.paused .answer op
  match attend (pauses.foldr (· + ·) 1) strands d with
  | (some answers, d) => (some answers, d)
  | (none, d) =>
    (none, d.setRegistry (tickets.foldl Registry.leave d.relay.registry))

/-- Carries out one operation of a page. -/
def perform (d : Dispatcher ε) (op : Nat → Flow Wait (Registry ε) α) :
    Option α × Dispatcher ε :=
  let (answers, d) := d.performAll [op]
  (answers.bind List.head?, d)

/-! ## Subscriptions and views -/

/-- Subscribes a page. -/
def register (d : Dispatcher ε) (page : String) (wallet : WalletId) (source : Nat) :
    Option Nat × Dispatcher ε :=
  let d := d.look
  let (taken, relay) := d.relay.register page wallet source
  (taken, d.update relay)

/-- Ends whatever listens under a page's name, and tells whether anybody did. -/
def deregister (d : Dispatcher ε) (page : String) : Bool × Dispatcher ε :=
  let d := d.look
  let (found, relay) := d.relay.deregister page
  (found, d.update relay)

/-- Whether a page's name is taken. -/
def isRegistered (d : Dispatcher ε) (page : String) : Bool × Dispatcher ε :=
  let d := d.look
  (d.relay.isRegistered page, d)

/-- Gives a subscription up and waits until its listener has ended. -/
def close (d : Dispatcher ε) (subscription : Nat) : Dispatcher ε :=
  let d := (d.change (·.cancel subscription)).look
  let d := (d.change (·.release subscription)).ensureUnit
  let enough (r : Relay ε) := !r.isListening subscription
  (if enough d.relay then d else d.waitFor enough).look

/-- Waits for something on the view bus, or until every job waits. -/
def receiveView (d : Dispatcher ε) (receiver : Nat) : Receipt ViewEvent × Dispatcher ε :=
  let d := d.ensureUnit
  let hasNews (r : Relay ε) := r.views.hasNews receiver
  let d := if hasNews d.relay then d else d.waitFor hasNews
  match d.relay.views.receive receiver with
  | (.empty, _) => (.empty, d)
  | (receipt, views) => (receipt, (d.change fun r => { r with views }).look)

end Dispatcher

end Purse
