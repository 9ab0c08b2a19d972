import Purse.Proofs.Registry.Course

/-!
# Refreshes in company

A `Company` is a registry together with all refreshes that were ever begun. They take
turns in any order, and between two turns anything may happen to the engines, wallets
may be forgotten and loaded again, and a refresh may be given up. Programs that call for
refreshes in the course of something else come to no more than such acts
(`Workers.Reflects.step`).

The log of a company tells who had which turn. `holders` are the refreshes that took
the lock of a registration, in this order, and `pictures` what they succeeded with.
-/

namespace Purse

/-- How far a refresh has come. -/
inductive Progress (ε : Type) where
  | waits (wait : Wait) (resume : Registry ε → Turns Wait (Registry ε) (Outcome Accounts))
  | ended (outcome : Outcome Accounts)
  /-- Whoever called for it does not wait for it any longer. -/
  | abandoned

/-- What is left of a refresh after a turn. -/
def Progress.after {ε : Type} : Turns Wait (Registry ε) (Outcome Accounts) → Progress ε
  | .done outcome _ => .ended outcome
  | .pause wait _ resume => .waits wait resume

/-- The picture that was taken. -/
def Progress.picture? {ε : Type} : Progress ε → Option Accounts
  | .ended (.ok p) => some p
  | .ended (.error _) | .waits _ _ | .abandoned => none

/-- A refresh that was begun. -/
structure Refresh (ε : Type) where
  ticket : Nat
  wallet : WalletId
  progress : Progress ε

/-- Whether the refresh has neither ended nor been given up. -/
def Refresh.isUnderWay {ε : Type} (f : Refresh ε) : Bool :=
  match f.progress with
  | .waits _ _ => true
  | .ended _ | .abandoned => false

/-- A registry with all refreshes that were ever begun, by number, and their turns. -/
structure Company (ε : Type) where
  registry : Registry ε
  refreshes : List (Refresh ε) := []
  /-- All turns that refreshes had, each with the number of the refresh. -/
  log : List (Nat × Turn Wait (Registry ε)) := []

/-- The lock of the registration was waited for. -/
def Wait.isLockOf (key : Nat) : Wait → Bool
  | lock k _ => k = key
  | _ => false

/-- A turn that leaves all engines alone and that none of them had to let in. -/
def Turn.AsksNobody {ε : Type} (τ : Turn Wait (Registry ε)) : Prop :=
  τ.left.engines = τ.found.engines ∧ ∀ n call, τ.wait ≠ .admission n call

namespace Company

variable {ε : Type}

/-! ## What may happen -/

/-- What may happen next. -/
inductive Act (ε : Type) where
  /-- Somebody calls for a refresh, under a ticket that nobody has at the moment. -/
  | begin (ticket : Nat) (w : WalletId)
  /-- A refresh has a turn, if it need not wait. -/
  | go (i : Nat)
  /-- A refresh is given up wherever it waits. -/
  | giveUp (i : Nat)
  /-- Engines change in any way, or are added. -/
  | engines (engines : List ε)
  /-- A wallet is loaded, if it is not. -/
  | register (w : WalletId) (access : Access)
  | remove (w : WalletId)

def modify (c : Company ε) (i : Nat) (progress : Progress ε) : Company ε :=
  { c with refreshes := c.refreshes.modify i fun f => { f with progress } }

/-- A refresh has had a turn. -/
def take (c : Company ε) (i : Nat) (wait : Wait)
    (t : Turns Wait (Registry ε) (Outcome Accounts)) : Company ε :=
  { c.modify i (.after t) with
    registry := t.state
    log := c.log ++ [(i, ⟨wait, c.registry, t.state⟩)] }

variable [Engine ε]

/-- The turn that a refresh would have now, and what it has waited for. -/
def turn? (c : Company ε) (i : Nat) : Option (Wait × Turns Wait (Registry ε) (Outcome Accounts)) :=
  match c.refreshes[i]? with
  | some ⟨_, _, .waits wait resume⟩ =>
    if c.registry.isOver wait then some (wait, resume c.registry) else none
  | _ => none

def perform (c : Company ε) : Act ε → Company ε
  | .begin ticket w =>
    if c.refreshes.any fun f => f.isUnderWay && f.ticket == ticket then c
    else { c with
      refreshes := c.refreshes ++ [⟨ticket, w, .waits .answer (Registry.refresh ticket w).run⟩] }
  | .go i =>
    match c.turn? i with
    | some (wait, t) => c.take i wait t
    | none => c
  | .giveUp i =>
    match c.refreshes[i]? with
    | some f =>
      if f.isUnderWay then { c.modify i .abandoned with registry := c.registry.leave f.ticket } else c
    | none => c
  | .engines engines => { c with registry := { c.registry with engines } }
  | .register w access =>
    if (c.registry.key? w).isSome then c else { c with registry := c.registry.add w access }
  | .remove w =>
    { c with registry := { c.registry with wallets := c.registry.wallets.filter (·.1 ≠ w) } }

def after (c : Company ε) (acts : List (Act ε)) : Company ε :=
  acts.foldl perform c

theorem after_append (c : Company ε) (acts acts' : List (Act ε)) :
    c.after (acts ++ acts') = (c.after acts).after acts' :=
  List.foldl_append

/-! ## What has happened -/

omit [Engine ε]

/-- The turns of one refresh. -/
def turnsOf (c : Company ε) (i : Nat) : List (Turn Wait (Registry ε)) :=
  (c.log.filter (·.1 = i)).map (·.2)

/-- The refreshes that took the lock of a registration, in this order. -/
def holders (c : Company ε) (key : Nat) : List Nat :=
  (c.log.filter fun e => e.2.wait.isLockOf key).map (·.1)

/-- There was a moment when the one had had all his turns and the other had not got beyond
lining up. -/
def Before (c : Company ε) (i j : Nat) : Prop :=
  ∃ pre post, c.log = pre ++ post ∧ (∀ e ∈ post, e.1 ≠ i) ∧
    (pre.filter (·.1 = j)).length ≤ 3

/-- The picture with which a refresh has succeeded. -/
def picture? (c : Company ε) (i : Nat) : Option Accounts :=
  c.refreshes[i]?.bind (·.progress.picture?)

/-- The pictures of the successful refreshes, in the order in which they took the lock. -/
def pictures (c : Company ε) (key : Nat) : List Accounts :=
  (c.holders key).filterMap c.picture?

end Company

end Purse
