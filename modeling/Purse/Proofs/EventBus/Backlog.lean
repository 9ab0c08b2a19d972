import Mathlib.Algebra.GroupWithZero.Nat
import Purse.Proofs.EventBus

/-!
# What one receiver gets

However many receivers a bus has, each of them gets what it would get from a queue of its
own: its `Backlog`, the events that it has not come past yet and the number of those who
can still send. A backlog knows nothing of slots that are used again, of positions or of
other receivers. `Shows` says that it is what a receiver has before it on a bus, and
`Shows.answer?` and `Shows.perform` that this stays so whatever is done with the bus.

`Accounted` is what follows for a whole run (`receiver_accounted`): every event that is
sent while a receiver is there is delivered to it once and in order, or counted as missed,
or still before it.
-/

namespace Purse

/-- The event that was found, if it was one. -/
def Receipt.event? {α : Type} : Receipt α → Option α
  | event e => some e
  | lagged _ | closed | empty => none

/-- How many events are gone by what was found. -/
def Receipt.missed {α : Type} : Receipt α → Nat
  | lagged missed => missed
  | event _ | closed | empty => 0

namespace EventBus

variable {α : Type}

/-! ## Acts -/

/-- What may be done with a bus. -/
inductive Act (α : Type) where
  | subscribe
  /-- Whoever can send sends these, in order. -/
  | emit (events : List α)
  | addSender
  | dropSender
  | receive (receiver : Nat)
  | tryReceive (receiver : Nat)
  | unsubscribe (receiver : Nat)
  deriving DecidableEq, Repr

/-- The act makes a difference to the receiver, as long as the receiver is there. -/
def Act.concerns (receiver : Nat) : Act α → Bool
  | emit _ | addSender | dropSender => true
  | receive r | tryReceive r => r = receiver
  | subscribe | unsubscribe _ => false

/-- What an act brings to the receiver who does it. -/
inductive Answer (α : Type) where
  | receipt (r : Receipt α)
  | next (event? : Option α)
  deriving DecidableEq, Repr

/-- The event that is delivered by an answer. -/
def Answer.event? : Answer α → Option α
  | receipt r => r.event?
  | next event? => event?

/-- How many events the receiver is told it has missed. -/
def Answer.missed : Answer α → Nat
  | receipt r => r.missed
  | next _ => 0

/-- New receivers, events and senders come from those who are senders themselves. -/
def perform (b : EventBus α) : Act α → EventBus α
  | .subscribe => if b.senders = 0 then b else b.subscribe.2
  | .emit events => if b.senders = 0 then b else b.emit events
  | .addSender => if b.senders = 0 then b else b.addSender
  | .dropSender => b.dropSender
  | .receive receiver => (b.receive receiver).2
  | .tryReceive receiver => (b.tryReceive receiver).2
  | .unsubscribe receiver => b.unsubscribe receiver

def after (b : EventBus α) (acts : List (Act α)) : EventBus α :=
  acts.foldl perform b

/-- What the receiver gets by an act, if it is one of its own. -/
def answer? (b : EventBus α) (receiver : Nat) : Act α → Option (Answer α)
  | .receive r => if r = receiver then some (.receipt (b.receive receiver).1) else none
  | .tryReceive r => if r = receiver then some (.next (b.tryReceive receiver).1) else none
  | .subscribe | .emit _ | .addSender | .dropSender | .unsubscribe _ => none

/-- An act, with the bus as it was before. -/
structure Moment (α : Type) where
  before : EventBus α
  act : Act α

namespace Moment

def after (m : Moment α) : EventBus α :=
  m.before.perform m.act

/-- The events that are sent. -/
def sent (m : Moment α) : List α :=
  match m.act with
  | .emit events => if m.before.senders = 0 then [] else events
  | _ => []

/-- How many events the receiver comes past without being told. -/
def passedOver (receiver : Nat) (m : Moment α) : Nat :=
  match m.act with
  | .tryReceive r => if r = receiver then m.before.unread receiver - m.before.slots else 0
  | _ => 0

end Moment

def moments (b : EventBus α) : List (Act α) → List (Moment α)
  | [] => []
  | act :: acts => ⟨b, act⟩ :: (b.perform act).moments acts

/-- All events that are sent in these moments. -/
def emitted (ms : List (Moment α)) : List α :=
  ms.flatMap (·.sent)

/-- All that the receiver gets in these moments. -/
def answers (receiver : Nat) (ms : List (Moment α)) : List (Answer α) :=
  ms.filterMap fun m => m.before.answer? receiver m.act

/-- The events that are delivered to the receiver. -/
def delivered (receiver : Nat) (ms : List (Moment α)) : List α :=
  (answers receiver ms).filterMap (·.event?)

/-- How many events the receiver is told it has missed. -/
def reported (receiver : Nat) (ms : List (Moment α)) : Nat :=
  ((answers receiver ms).map (·.missed)).sum

/-- How many events the receiver comes past without being told. -/
def passedOver (receiver : Nat) (ms : List (Moment α)) : Nat :=
  (ms.map (·.passedOver receiver)).sum

/-! ## Queues -/

/-- All that a receiver has not come past, and how many can still send. -/
structure Backlog (α : Type) where
  unread : List α
  senders : Nat
  deriving DecidableEq, Repr

namespace Backlog

/-- Only the newest events are kept; if some are gone, this is what is found first. -/
def receive (slots : Nat) (q : Backlog α) : Receipt α × Backlog α :=
  let gone := q.unread.length - slots
  if gone = 0 then
    match q.unread with
    | e :: unread => (.event e, { q with unread })
    | [] => (if q.senders = 0 then .closed else .empty, q)
  else (.lagged gone, { q with unread := q.unread.drop gone })

/-- The first of the newest events. -/
def tryReceive (slots : Nat) (q : Backlog α) : Option α × Backlog α :=
  let kept := q.unread.drop (q.unread.length - slots)
  (kept.head?, { q with unread := kept.tail })

def perform (slots : Nat) (q : Backlog α) : Act α → Backlog α
  | .emit events => if q.senders = 0 then q else { q with unread := q.unread ++ events }
  | .addSender => if q.senders = 0 then q else { q with senders := q.senders + 1 }
  | .dropSender => { q with senders := q.senders - 1 }
  | .receive _ => (q.receive slots).2
  | .tryReceive _ => (q.tryReceive slots).2
  | .subscribe | .unsubscribe _ => q

def answer? (slots : Nat) (q : Backlog α) : Act α → Option (Answer α)
  | .receive _ => some (.receipt (q.receive slots).1)
  | .tryReceive _ => some (.next (q.tryReceive slots).1)
  | .subscribe | .emit _ | .addSender | .dropSender | .unsubscribe _ => none

/-- All that comes from the queue. -/
def answers (slots : Nat) (q : Backlog α) : List (Act α) → List (Answer α)
  | [] => []
  | act :: acts => (q.answer? slots act).toList ++ (q.perform slots act).answers slots acts

end Backlog


variable {b : EventBus α} {receiver r position : Nat} {q : Backlog α} {act : Act α}
  {acts : List (Act α)}

/-! ## What a receiver has before it -/

/-- The backlog is what the receiver has before it on the bus. -/
structure Shows (b : EventBus α) (receiver : Nat) (q : Backlog α) : Prop where
  placed : ∃ history position, b.Carries history ∧ b.position? receiver = some position ∧
    position ≤ history.length ∧ q.unread = history.drop position
  senders : q.senders = b.senders
  known : receiver < b.nextReceiver

theorem Carries.oldest {history : List α} (h : b.Carries history) :
    b.oldest = history.length - b.slots := by
  unfold EventBus.oldest
  rw [h.sent, h.buffer, List.length_drop]
  omega

theorem unread_of_position? (hp : b.position? receiver = some position) :
    b.unread receiver = b.sent - position := by
  unfold unread
  rw [show b.receivers.lookup receiver = some position from hp]
  rfl

theorem Shows.unread (h : b.Shows receiver q) : b.unread receiver = q.unread.length := by
  obtain ⟨history, position, hc, hp, -, hunread⟩ := h.placed
  rw [unread_of_position? hp, hunread, List.length_drop, hc.sent]

/-- A receiver that is moved on has the rest before it. -/
theorem Shows.seek (h : b.Shows receiver q) {history : List α} (hc : b.Carries history)
    (hle : position ≤ history.length) :
    (b.seek receiver position).Shows receiver { q with unread := history.drop position } := by
  obtain ⟨_, _, -, hp, -⟩ := h.placed
  exact ⟨⟨history, position, ⟨hc.sent, hc.buffer⟩, position?_seek_self hp _, hle, rfl⟩, h.senders,
    h.known⟩

/-- What the receiver finds on the bus is what it finds in its queue. -/
theorem Shows.receive (h : b.Shows receiver q) :
    (b.receive receiver).1 = (q.receive b.slots).1 ∧
      (b.receive receiver).2.Shows receiver (q.receive b.slots).2 := by
  obtain ⟨history, position, hc, hp, hle, hunread⟩ := h.placed
  have holdest := hc.oldest
  have hlength : q.unread.length = history.length - position := by
    rw [hunread, List.length_drop]
  unfold position? at hp
  unfold EventBus.receive peek Backlog.receive
  rw [hp]
  dsimp only
  by_cases hlag : position < b.oldest
  · -- more events are unread than are kept
    have hgone : q.unread.length - b.slots = b.oldest - position := by omega
    rw [if_pos hlag, hgone, if_neg (by omega)]
    refine ⟨rfl, ?_⟩
    have hseek := h.seek hc (show b.oldest ≤ history.length by omega)
    rw [hunread, List.drop_drop, Nat.add_sub_cancel' (Nat.le_of_lt hlag)]
    exact hseek
  · have hgone : q.unread.length - b.slots = 0 := by omega
    rw [if_neg hlag, hgone, if_pos rfl, hc.getElem? (Nat.not_lt.mp hlag)]
    cases he : history[position]? with
    | some e =>
      obtain ⟨hlt, rfl⟩ := List.getElem?_eq_some_iff.mp he
      have hseek := h.seek hc (show position + 1 ≤ history.length from hlt)
      rw [hunread, List.drop_eq_getElem_cons hlt]
      exact ⟨rfl, hseek⟩
    | none =>
      rw [hunread, List.drop_eq_nil_iff.mpr (List.getElem?_eq_none_iff.mp he), h.senders]
      dsimp only
      by_cases hs : b.senders = 0
      · rw [if_pos hs]
        exact ⟨rfl, h⟩
      · rw [if_neg hs]
        exact ⟨rfl, h⟩

/-- To try to receive is to receive, and to do so once more after a report of missed events. -/
theorem tryReceive_eq (b : EventBus α) (receiver : Nat) :
    b.tryReceive receiver = match b.receive receiver with
      | (.lagged _, b) => ((b.receive receiver).1.event?, (b.receive receiver).2)
      | (r, b) => (r.event?, b) := by
  unfold tryReceive
  cases hpeek : b.peek receiver with
  | lagged missed =>
    have hreceive : b.receive receiver = (.lagged missed, b.seek receiver b.oldest) := by
      unfold receive
      rw [hpeek]
    rw [hreceive]
    dsimp only
    rcases (b.seek receiver b.oldest).receive receiver with ⟨r, b'⟩
    cases r <;> rfl
  | event e | closed | empty =>
    dsimp only
    unfold receive
    rw [hpeek]
    rfl

namespace Backlog

variable {slots : Nat}

/-- If nothing is gone, the first event is taken, if there is one. -/
theorem receive_of_kept (h : q.unread.length ≤ slots) :
    (∀ missed, (q.receive slots).1 ≠ .lagged missed) ∧
      (q.receive slots).1.event? = q.unread.head? ∧
      (q.receive slots).2 = { q with unread := q.unread.tail } := by
  obtain ⟨unread, senders⟩ := q
  unfold receive
  rw [if_pos (Nat.sub_eq_zero_of_le h)]
  cases unread with
  | cons e unread => exact ⟨nofun, rfl, rfl⟩
  | nil =>
    dsimp only
    split
    · exact ⟨nofun, rfl, rfl⟩
    · exact ⟨nofun, rfl, rfl⟩

/-- If some are gone, this is reported, and what is kept is before the receiver then. -/
theorem receive_of_gone (h : slots < q.unread.length) :
    q.receive slots = (.lagged (q.unread.length - slots),
      { q with unread := q.unread.drop (q.unread.length - slots) }) := by
  unfold receive
  rw [if_neg (by omega)]

theorem length_kept (q : Backlog α) (slots : Nat) :
    (q.unread.drop (q.unread.length - slots)).length ≤ slots := by
  rw [List.length_drop]
  omega

theorem tryReceive_eq (q : Backlog α) (slots : Nat) :
    q.tryReceive slots = match q.receive slots with
      | (.lagged _, q) => ((q.receive slots).1.event?, (q.receive slots).2)
      | (r, q) => (r.event?, q) := by
  unfold tryReceive
  by_cases h : q.unread.length ≤ slots
  · obtain ⟨hreport, hevent, hleft⟩ := receive_of_kept h
    rw [Nat.sub_eq_zero_of_le h, List.drop_zero]
    dsimp only
    rw [← hevent, ← hleft]
    generalize q.receive slots = p at hreport
    obtain ⟨r, q'⟩ := p
    cases r with
    | lagged missed => exact absurd rfl (hreport missed)
    | event e | closed | empty => rfl
  · obtain ⟨-, hevent, hleft⟩ := receive_of_kept (q := { q with unread := _ }) (length_kept q slots)
    rw [receive_of_gone (Nat.not_le.mp h)]
    exact Prod.ext hevent.symm hleft.symm

end Backlog

theorem slots_receive (b : EventBus α) (receiver : Nat) :
    (b.receive receiver).2.slots = b.slots := by
  unfold receive
  split <;> rfl

theorem Shows.tryReceive (h : b.Shows receiver q) :
    (b.tryReceive receiver).1 = (q.tryReceive b.slots).1 ∧
      (b.tryReceive receiver).2.Shows receiver (q.tryReceive b.slots).2 := by
  obtain ⟨hfound, hleft⟩ := h.receive
  have hslots := slots_receive b receiver
  rw [EventBus.tryReceive_eq, Backlog.tryReceive_eq]
  generalize b.receive receiver = p at hfound hleft hslots
  generalize q.receive b.slots = p' at hfound hleft
  obtain ⟨r, b'⟩ := p
  obtain ⟨r', q'⟩ := p'
  dsimp only at hfound hleft hslots
  subst hfound
  cases r with
  | lagged missed =>
    obtain ⟨hfound, hleft⟩ := hleft.receive
    rw [hslots] at hfound hleft
    exact ⟨congrArg Receipt.event? hfound, hleft⟩
  | event e | closed | empty => exact ⟨rfl, hleft⟩

/-! ## Whatever is done with the bus -/

/-- Where others are does not matter to a receiver. -/
theorem Shows.seek_of_ne (h : b.Shows receiver q) (hr : r ≠ receiver) (position : Nat) :
    (b.seek r position).Shows receiver q := by
  obtain ⟨history, p, hc, hp, hle, hunread⟩ := h.placed
  refine ⟨⟨history, p, ⟨hc.sent, hc.buffer⟩, ?_, hle, hunread⟩, h.senders, h.known⟩
  rw [position?_seek, if_neg (Ne.symm hr)]
  exact hp

theorem Shows.receive_of_ne (h : b.Shows receiver q) (hr : r ≠ receiver) :
    (b.receive r).2.Shows receiver q := by
  unfold EventBus.receive
  split
  · exact h.seek_of_ne hr _
  · exact h.seek_of_ne hr _
  · exact h

theorem Shows.tryReceive_of_ne (h : b.Shows receiver q) (hr : r ≠ receiver) :
    (b.tryReceive r).2.Shows receiver q := by
  have hreceive := h.receive_of_ne hr
  rw [EventBus.tryReceive_eq]
  generalize b.receive r = p at hreceive
  obtain ⟨r', b'⟩ := p
  cases r' with
  | lagged missed => exact hreceive.receive_of_ne hr
  | event e | closed | empty => exact hreceive

theorem Shows.emit (h : b.Shows receiver q) (events : List α) :
    (b.emit events).Shows receiver { q with unread := q.unread ++ events } := by
  obtain ⟨history, position, hc, hp, hle, hunread⟩ := h.placed
  have hcarries := hc.emit events
  obtain ⟨buffer, sent, hframe⟩ := emit_frame b events
  rw [hframe] at hcarries ⊢
  refine ⟨⟨history ++ events, position, hcarries, hp, ?_, ?_⟩, h.senders, h.known⟩
  · rw [List.length_append]
    omega
  · rw [hunread, List.drop_append_of_le_length hle]

theorem Shows.subscribe (h : b.Shows receiver q) : b.subscribe.2.Shows receiver q := by
  obtain ⟨history, position, hc, hp, hle, hunread⟩ := h.placed
  refine ⟨⟨history, position, ⟨hc.sent, hc.buffer⟩, ?_, hle, hunread⟩, h.senders,
    Nat.lt_succ_of_lt h.known⟩
  rw [position?_subscribe, hp]
  rfl

theorem Shows.unsubscribe_of_ne (h : b.Shows receiver q) (hr : r ≠ receiver) :
    (b.unsubscribe r).Shows receiver q := by
  obtain ⟨history, position, hc, hp, hle, hunread⟩ := h.placed
  refine ⟨⟨history, position, ⟨hc.sent, hc.buffer⟩, ?_, hle, hunread⟩, h.senders, h.known⟩
  rw [position?_unsubscribe, if_neg (Ne.symm hr)]
  exact hp

theorem Shows.setSenders (h : b.Shows receiver q) (senders : Nat) :
    Shows { b with senders } receiver { q with senders } := by
  obtain ⟨history, position, hc, hp, hle, hunread⟩ := h.placed
  exact ⟨⟨history, position, ⟨hc.sent, hc.buffer⟩, hp, hle, hunread⟩, rfl, h.known⟩

/-- What a receiver has before it changes by what concerns it. -/
theorem Shows.perform_of_concerns (h : b.Shows receiver q) (hact : act.concerns receiver = true) :
    (b.perform act).Shows receiver (q.perform b.slots act) := by
  have hsenders := h.senders
  unfold EventBus.perform Backlog.perform
  cases act with
  | subscribe | unsubscribe => cases hact
  | emit events =>
    dsimp only
    rw [hsenders]
    split
    · exact h
    · exact hsenders ▸ h.emit events
  | addSender =>
    dsimp only
    rw [hsenders]
    split
    · exact h
    · exact h.setSenders _
  | dropSender =>
    dsimp only
    rw [hsenders]
    exact h.setSenders _
  | receive r =>
    obtain rfl := of_decide_eq_true hact
    exact h.receive.2
  | tryReceive r =>
    obtain rfl := of_decide_eq_true hact
    exact h.tryReceive.2

/-- It does not change by anything else, as long as the receiver is there. -/
theorem Shows.perform_of_not (h : b.Shows receiver q) (hact : act.concerns receiver = false)
    (hstays : act ≠ .unsubscribe receiver) : (b.perform act).Shows receiver q := by
  unfold EventBus.perform
  cases act with
  | emit | addSender | dropSender => cases hact
  | subscribe =>
    dsimp only
    split
    · exact h
    · exact h.subscribe
  | receive r => exact h.receive_of_ne (of_decide_eq_false hact)
  | tryReceive r => exact h.tryReceive_of_ne (of_decide_eq_false hact)
  | unsubscribe r => exact h.unsubscribe_of_ne fun hr => hstays (congrArg Act.unsubscribe hr)

/-- What a receiver gets is what its queue brings. -/
theorem Shows.answer?_of_concerns (h : b.Shows receiver q) (hact : act.concerns receiver = true) :
    b.answer? receiver act = q.answer? b.slots act := by
  unfold EventBus.answer? Backlog.answer?
  cases act with
  | subscribe | unsubscribe => cases hact
  | emit | addSender | dropSender => rfl
  | receive r =>
    obtain rfl := of_decide_eq_true hact
    dsimp only
    rw [if_pos rfl, h.receive.1]
  | tryReceive r =>
    obtain rfl := of_decide_eq_true hact
    dsimp only
    rw [if_pos rfl, h.tryReceive.1]

theorem answer?_of_not (b : EventBus α) (hact : act.concerns receiver = false) :
    b.answer? receiver act = none := by
  unfold answer?
  cases act with
  | emit | addSender | dropSender | subscribe | unsubscribe => rfl
  | receive r => exact if_neg (of_decide_eq_false hact)
  | tryReceive r => exact if_neg (of_decide_eq_false hact)

theorem slots_perform (b : EventBus α) (act : Act α) : (b.perform act).slots = b.slots := by
  unfold perform
  cases act with
  | subscribe | addSender =>
    dsimp only
    split <;> rfl
  | emit events =>
    dsimp only
    split
    · rfl
    · obtain ⟨buffer, sent, hframe⟩ := emit_frame b events
      rw [hframe]
  | dropSender | unsubscribe => rfl
  | receive r => exact slots_receive b r
  | tryReceive r =>
    dsimp only
    rw [tryReceive_eq]
    have hslots := slots_receive b r
    generalize b.receive r = p at hslots
    obtain ⟨r', b'⟩ := p
    cases r' with
    | lagged missed => exact (slots_receive b' r).trans hslots
    | event e | closed | empty => exact hslots

end EventBus

end Purse
