import Purse.Relay.Turn

/-!
# Taking turns

Jobs have their turns in the order in which they became able to go on. A job that
gave way lines up again once nobody else can go on, or after `batch` turns, the last
one to give way first. Where one event lets several jobs go on, they line up in the
order in which they began to wait for it. A listener begins anew each time it has
heard everything, a refresh that is held back each time it is held back; but for its
cancellation a refresh has waited ever since its first turn.

Between two batches the page has its turn, if it can go on; what it does then is in
`Purse.Relay.Page`. The dispatcher is one particular order of the steps of a relay.
-/

namespace Purse

/-- A relay, and whose turn it is. -/
structure Dispatcher (ε : Type) where
  relay : Relay ε
  /-- The jobs that can go on, the next one first. -/
  ready : List Nat := []
  /-- The jobs that gave way, the last one first. -/
  deferred : List Nat := []
  /-- The jobs that wait, the one that has waited longest first. -/
  waiting : List Nat := []
  /-- The jobs that had a turn, in the order in which they wait for a cancellation. -/
  attached : List Nat := []
  /-- What is left of the page's turn. -/
  units : Nat := fullTurn

namespace Dispatcher

variable {ε : Type} [Engine ε]

/-- The most turns of jobs before the page is asked. -/
def batch : Nat := 61

/-! ## Lining up -/

/-- The numbers of the jobs with some property. -/
def jobsWhere (r : Relay ε) (p : Job ε → Bool) : List Nat :=
  (r.jobs.filter fun j => p j.2).map (·.1)

/-- Lines up the waiting jobs that can go on by now. -/
def wake (d : Dispatcher ε) : Dispatcher ε :=
  if d.waiting.isEmpty then d
  else
    let able := jobsWhere d.relay d.relay.canStep
    let roused := d.waiting.filter able.contains
    if roused.isEmpty then d
    else
      let cancelled := jobsWhere d.relay fun job => d.relay.isCancelled job.subscription
      let ending := (d.attached.filter roused.contains).filter cancelled.contains
      let others := roused.filter fun job => !cancelled.contains job
      { d with
        ready := d.ready ++ ending ++ others
        waiting := d.waiting.filter fun job => !roused.contains job }

/-- Takes over a changed relay: new jobs line up, then those that can go on again. -/
def update (d : Dispatcher ε) (relay : Relay ε) : Dispatcher ε :=
  let started := (relay.jobs.filter fun j => d.relay.nextJob ≤ j.1).map (·.1)
  wake { d with relay, ready := d.ready ++ started }

/-- From now on a listener waits for its cancellation after all others; a refresh stays
where it has been since its first turn. -/
def attach (d : Dispatcher ε) (job : Nat) : Dispatcher ε :=
  match d.relay.jobs.lookup job with
  | some (.listen _) => { d with attached := d.attached.erase job ++ [job] }
  | _ => if d.attached.contains job then d else { d with attached := d.attached ++ [job] }

/-- Puts a job where it belongs after its turn. -/
def place (d : Dispatcher ε) (job : Nat) : TurnEnd → Dispatcher ε
  | .ended => { d with attached := d.attached.erase job }
  | .gaveWay =>
    let d := d.attach job
    { d with deferred := job :: d.deferred }
  | .waits =>
    let d := d.attach job
    { d with waiting := d.waiting ++ [job] }

/-! ## Turns of jobs -/

/-- The first job in line has its turn. -/
def next (d : Dispatcher ε) : Dispatcher ε :=
  match d.ready with
  | [] => d
  | job :: rest =>
    let (how, relay) := d.relay.poll job
    ({ d with ready := rest }.update relay).place job how

/-- A batch of turns, after which those who gave way line up again. -/
def round (d : Dispatcher ε) : Dispatcher ε :=
  let d := Nat.repeat next batch d
  { d with ready := d.ready ++ d.deferred, deferred := [] }

/-- Whether every job waits. -/
def isIdle (d : Dispatcher ε) : Bool :=
  d.ready.isEmpty && d.deferred.isEmpty

/-- How many notifications the listener of a subscription has not seen. -/
def backlog (r : Relay ε) (l : Listener) : Nat :=
  (r.sources[l.source]?.map (·.bus.unread l.receiver)).getD 0

/-- More turns than the jobs can have before every one of them waits. In a turn, a
refresh goes through a pause, ends, or finds once that it has to wait again, and a
listener takes a notification, from which one refresh may follow. -/
def budget (r : Relay ε) : Nat :=
  let turns (left : Turns Wait (Registry ε) (List ViewEvent)) := left.pauses + 3
  let underWay := r.jobs.map fun
    | (_, .listen _) => 4
    | (_, .refresh _ _ resume) => turns (resume r.registry)
  let toCome := r.listeners.map fun l =>
    match backlog r l with
    | 0 => 0
    | n => n * (turns (Relay.refreshEvents r.nextJob l.wallet .mixer r.registry) + 1)
  (underWay ++ toCome).foldr (· + ·) 1

/-- Rounds until a condition holds or every job waits. -/
def runUntil (enough : Relay ε → Bool) : Nat → Dispatcher ε → Dispatcher ε
  | 0, d => d
  | n + 1, d => if enough d.relay || d.isIdle then d else runUntil enough n d.round

/-- Jobs have their turns until every one of them waits. The page's next turn is a
new one. -/
def settle (d : Dispatcher ε) : Dispatcher ε :=
  { runUntil (fun _ => false) (budget d.relay) d with units := fullTurn }

end Dispatcher

end Purse
