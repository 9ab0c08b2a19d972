import Purse.Relay

/-!
# How long a turn lasts

Everything runs on one thread, and whoever is given a turn keeps it until he has to
wait. A turn is limited, though: it has `fullTurn` units, every look at something
shared takes one, every receipt of a listener takes one, and he who needs a unit
when there is none left gives way.

`poll` is one turn of a job, a number of steps of the relay. What it leaves behind,
`TurnEnd`, says where the job belongs after that.
-/

namespace Purse

/-- The units of a new turn. -/
def fullTurn : Nat := 128

/-- The units that have to be left where a wait is to be passed. -/
def Wait.needs : Wait → Nat
  | answer | turn | admission _ _ => 0
  | look | room | lock _ _ => 1

/-- The units that are gone once a wait is passed. -/
def Wait.takes : Wait → Nat
  | answer | room | turn | admission _ _ => 0
  | look | lock _ _ => 1

namespace Registry

variable {ε : Type} [Engine ε]

/-- What is left of a turn after a wait, or nothing if the turn ends there. Giving
way always ends it. -/
def pass (wait : Wait) (s : Registry ε) (units : Nat) : Option Nat :=
  if wait ≠ .turn && s.isOver wait && wait.needs ≤ units then some (units - wait.takes) else none

/-- What is left of a turn that begins at a wait, or nothing if there is still need to
wait. Whoever gave way has his turn now. -/
def passAnew (wait : Wait) (s : Registry ε) (units : Nat) : Option Nat :=
  if wait = .turn then some units else s.pass wait units

end Registry

/-- How the turn of a job ends. -/
inductive TurnEnd where
  /-- The job has come to its end. -/
  | ended
  /-- The job could go on in another turn. -/
  | gaveWay
  | waits
  deriving DecidableEq, Repr

/-- A turn ends before these waits only because it is used up, or to give way. -/
def TurnEnd.ofWait : Wait → TurnEnd
  | .answer | .look | .room | .turn => gaveWay
  | .admission _ _ | .lock _ _ => waits

namespace Relay

variable {ε : Type} [Engine ε]

/-- A listener takes receipts until there are none or its turn is used up, even
when nothing is left by then. -/
def listen (job subscription : Nat) : Nat → Relay ε → TurnEnd × Relay ε
  | 0, r => (if (r.jobs.lookup job).isSome then .gaveWay else .ended, r)
  | units + 1, r =>
    match r.jobs.lookup job with
    | none => (.ended, r)
    | some j => if r.canStep j then listen job subscription units (r.hear job subscription)
      else (.waits, r)

/-- Gives a job a turn. -/
def poll (r : Relay ε) (job : Nat) : TurnEnd × Relay ε :=
  match r.jobs.lookup job with
  | none => (.ended, r)
  | some (.listen subscription) => listen job subscription fullTurn r
  | some (.refresh subscription wait resume) =>
    if r.isCancelled subscription then (.ended, r.abandon job)
    else
      match r.registry.passAnew wait fullTurn with
      | none => (.waits, r)
      | some units =>
        let left := (resume r.registry).proceed Registry.pass units
        match left with
        | .done _ _ => (.ended, r.advance job subscription left)
        | .pause wait _ _ => (.ofWait wait, r.advance job subscription left)

end Relay

end Purse
