import Purse.EventBus
import Purse.Keyed

/-!
# What becomes of events

`Carries` relates a bus to everything that was ever sent on it: the bus keeps the end of
that history, and receivers stand somewhere in it. A receiver gets the event at which it
stands, or learns that this event is gone, in which case it goes on with the oldest one
that is kept (`Carries.receive`). So whoever has come past an event has got it, or has
learned that it is gone (`Carries.receive_ahead`).
-/

namespace Purse.EventBus

variable {α : Type} {b b' : EventBus α} {history : List α} {receiver position k : Nat}

/-- The bus keeps the end of what was sent. -/
structure Carries (b : EventBus α) (history : List α) : Prop where
  sent : b.sent = history.length
  buffer : b.buffer = history.drop (history.length - b.slots)

/-- Where a receiver stands. -/
def position? (b : EventBus α) (receiver : Nat) : Option Nat :=
  b.receivers.lookup receiver

/-! ## Sending -/

theorem carries_new (capacity : Nat) : (new capacity : EventBus α).Carries [] :=
  ⟨rfl, List.drop_nil.symm⟩

theorem slots_send (b : EventBus α) (e : α) : (b.send e).slots = b.slots := rfl

theorem Carries.send (h : b.Carries history) (e : α) : (b.send e).Carries (history ++ [e]) where
  sent := by
    show b.sent + 1 = _
    rw [h.sent, List.length_append]
    rfl
  buffer := by
    show (b.buffer ++ [e]).drop ((b.buffer ++ [e]).length - b.slots) = _
    rw [slots_send, h.buffer]
    have hlength : history.length - b.slots ≤ history.length := Nat.sub_le _ _
    -- what was dropped before would be dropped now
    rw [← List.drop_append_of_le_length hlength, List.drop_drop, List.length_drop,
      List.length_append, List.length_singleton]
    congr 1
    omega

theorem Carries.emit (h : b.Carries history) (events : List α) :
    (b.emit events).Carries (history ++ events) := by
  unfold EventBus.emit
  induction events generalizing b history with
  | nil => rwa [List.append_nil]
  | cons e events ih =>
    rw [List.append_cons]
    exact ih (h.send e)

theorem emit_frame (b : EventBus α) (events : List α) :
    ∃ buffer sent, b.emit events = { b with buffer, sent } := by
  unfold EventBus.emit
  induction events generalizing b with
  | nil => exact ⟨_, _, rfl⟩
  | cons e events ih =>
    obtain ⟨buffer, sent, h⟩ := ih (b.send e)
    exact ⟨buffer, sent, h⟩

/-! ## Receivers come and go -/

theorem position?_subscribe (b : EventBus α) (receiver : Nat) :
    b.subscribe.2.position? receiver =
      (b.position? receiver).or (if receiver = b.nextReceiver then some b.sent else none) := by
  unfold position?
  show (b.receivers ++ [(b.nextReceiver, b.sent)]).lookup receiver = _
  rw [List.lookup_append, List.lookup_cons]
  congr 1
  by_cases hr : receiver = b.nextReceiver
  · rw [if_pos hr, hr, beq_self_eq_true]
  · rw [if_neg hr, beq_eq_false_iff_ne.mpr hr, List.lookup_nil]

theorem position?_unsubscribe (b : EventBus α) (gone receiver : Nat) :
    (b.unsubscribe gone).position? receiver =
      if receiver = gone then none else b.position? receiver :=
  Keyed.lookup_erase gone receiver b.receivers

theorem position?_seek (b : EventBus α) (moved position receiver : Nat) :
    (b.seek moved position).position? receiver =
      if receiver = moved then (b.position? moved).map fun _ => position
      else b.position? receiver :=
  Keyed.lookup_replace moved receiver position b.receivers

theorem position?_seek_self (hp : b.position? receiver = some position) (p : Nat) :
    (b.seek receiver p).position? receiver = some p := by
  rw [position?_seek, if_pos rfl, hp]
  rfl

/-! ## Receiving -/

theorem oldest_le (b : EventBus α) : b.oldest ≤ b.sent := Nat.sub_le _ _

/-- From the oldest one on, events stand on the bus where they stand in the history. -/
theorem Carries.getElem? (h : b.Carries history) (hle : b.oldest ≤ k) :
    b.buffer[k - b.oldest]? = history[k]? := by
  have holdest : b.oldest = history.length - b.slots := by
    unfold oldest
    rw [h.sent, h.buffer, List.length_drop]
    omega
  rw [holdest] at hle ⊢
  rw [h.buffer, List.getElem?_drop, Nat.add_sub_cancel' hle]

/-- What a receiver gets, and where it stands after that. -/
inductive Reception (b : EventBus α) (receiver position : Nat) (history : List α) :
    Receipt α × EventBus α → Prop
  | event {e : α} (hle : b.oldest ≤ position) (he : history[position]? = some e) :
      Reception b receiver position history (.event e, b.seek receiver (position + 1))
  | lagged (hlt : position < b.oldest) : Reception b receiver position history
      (.lagged (b.oldest - position), b.seek receiver b.oldest)
  | closed (hle : b.sent ≤ position) : Reception b receiver position history (.closed, b)
  | empty (hle : b.sent ≤ position) : Reception b receiver position history (.empty, b)

theorem Carries.receive (h : b.Carries history) (hp : b.position? receiver = some position) :
    Reception b receiver position history (b.receive receiver) := by
  unfold position? at hp
  unfold EventBus.receive peek
  rw [hp]
  dsimp only
  by_cases hlt : position < b.oldest
  · rw [if_pos hlt]
    exact .lagged hlt
  · rw [if_neg hlt, h.getElem? (Nat.not_lt.mp hlt)]
    cases he : history[position]? with
    | some e => exact .event (Nat.not_lt.mp hlt) he
    | none =>
      have hle : b.sent ≤ position := h.sent ▸ List.getElem?_eq_none_iff.mp he
      by_cases hs : b.senders = 0
      · dsimp only
        rw [if_pos hs]
        exact .closed hle
      · dsimp only
        rw [if_neg hs]
        exact .empty hle

/-- A receiver stays where there are events. -/
theorem Carries.receive_placed (h : b.Carries history) (hp : b.position? receiver = some position)
    (hle : position ≤ b.sent) :
    ∃ p, (b.receive receiver).2.position? receiver = some p ∧ p ≤ (b.receive receiver).2.sent := by
  generalize hr : b.receive receiver = r
  cases hr ▸ h.receive hp with
  | event _ he =>
    have hlt := (List.getElem?_eq_some_iff.mp he).1
    exact ⟨position + 1, position?_seek_self hp _, h.sent ▸ hlt⟩
  | lagged => exact ⟨b.oldest, position?_seek_self hp _, b.oldest_le⟩
  | closed | empty => exact ⟨position, hp, hle⟩

/-- A receiver that has not come past an event yet is told that this event is gone, or it
gets this event, or it has not come past it after that either. -/
theorem Carries.receive_ahead {e : α} (h : b.Carries history)
    (hp : b.position? receiver = some position) (hle : position ≤ k) (he : history[k]? = some e) :
    (∃ missed, (b.receive receiver).1 = .lagged missed ∧ k < position + missed) ∨
    (b.receive receiver).1 = .event e ∧ position = k ∨
    ∃ p, (b.receive receiver).2.position? receiver = some p ∧ p ≤ k := by
  have hk : k < b.sent := h.sent ▸ (List.getElem?_eq_some_iff.mp he).1
  generalize hr : b.receive receiver = r
  cases hr ▸ h.receive hp with
  | lagged hlt =>
    by_cases hgone : k < b.oldest
    · exact Or.inl ⟨_, rfl, by omega⟩
    · exact Or.inr (Or.inr ⟨b.oldest, position?_seek_self hp _, by omega⟩)
  | event _ he' =>
    rcases Nat.lt_or_eq_of_le hle with hlt | rfl
    · exact Or.inr (Or.inr ⟨position + 1, position?_seek_self hp _, hlt⟩)
    · cases he.symm.trans he'
      exact Or.inr (Or.inl ⟨rfl, rfl⟩)
  | closed hsent | empty hsent => omega

/-- Nobody who has something ahead is told that nothing more will come. -/
theorem Carries.receive_ne_closed (h : b.Carries history)
    (hp : b.position? receiver = some position) (hlt : position < b.sent) :
    (b.receive receiver).1 ≠ .closed := by
  generalize hr : b.receive receiver = r
  cases hr ▸ h.receive hp with
  | event | lagged | empty => exact nofun
  | closed hsent => omega

/-- Whoever gets an event stands behind it. -/
theorem Carries.position?_of_event {e : α} (h : b.Carries history)
    (hp : b.position? receiver = some position) (he : (b.receive receiver).1 = .event e) :
    (b.receive receiver).2.position? receiver = some (position + 1) := by
  generalize hr : b.receive receiver = r at he
  cases hr ▸ h.receive hp with
  | event => exact position?_seek_self hp _
  | lagged | closed | empty => cases he

/-- Whoever is told that so many events are gone stands behind them. -/
theorem Carries.position?_of_lagged {missed : Nat} (h : b.Carries history)
    (hp : b.position? receiver = some position) (he : (b.receive receiver).1 = .lagged missed) :
    (b.receive receiver).2.position? receiver = some (position + missed) := by
  generalize hr : b.receive receiver = r at he
  cases hr ▸ h.receive hp with
  | lagged hlt =>
    cases he
    rw [Nat.add_sub_cancel' (Nat.le_of_lt hlt)]
    exact position?_seek_self hp _
  | event | closed | empty => cases he

theorem receive_none (hp : b.position? receiver = none) : b.receive receiver = (.closed, b) := by
  unfold position? at hp
  unfold EventBus.receive peek
  rw [hp]

/-- A receiver never goes back. -/
theorem Carries.receive_onward (h : b.Carries history) {p : Nat}
    (hp' : (b.receive receiver).2.position? receiver = some p) :
    ∃ position, b.position? receiver = some position ∧ position ≤ p := by
  cases hp : b.position? receiver with
  | none =>
    rw [receive_none hp, hp] at hp'
    cases hp'
  | some position =>
    refine ⟨position, rfl, ?_⟩
    generalize hr : b.receive receiver = r at hp'
    cases hr ▸ h.receive hp with
    | lagged | event =>
      cases (position?_seek_self hp _).symm.trans hp'
      omega
    | closed | empty =>
      cases hp.symm.trans hp'
      omega

/-! ## What becomes of a bus -/

/-- A bus and what has become of it: more was sent, and receivers that are none of the
moved ones stand where they stood. -/
structure Follows (b b' : EventBus α) (moved : Nat → Prop) : Prop where
  carries : ∀ history, b.Carries history → ∃ more, b'.Carries (history ++ more)
  next : b.nextReceiver ≤ b'.nextReceiver
  /-- Receivers that are still to come have no place yet. -/
  fresh : ∀ receiver, b'.nextReceiver ≤ receiver → b.position? receiver = none →
    b'.position? receiver = none
  position : ∀ receiver < b.nextReceiver, ¬moved receiver →
    b'.position? receiver = b.position? receiver

namespace Follows

variable {moved : Nat → Prop}

theorem of_carries (h : ∀ history, b.Carries history → b'.Carries history)
    (hnext : b'.nextReceiver = b.nextReceiver)
    (hposition : ∀ receiver, ¬moved receiver → b'.position? receiver = b.position? receiver)
    (hfresh : ∀ receiver, b.position? receiver = none → b'.position? receiver = none) :
    Follows b b' moved where
  carries history hb := ⟨[], by rw [List.append_nil]; exact h history hb⟩
  next := Nat.le_of_eq hnext.symm
  fresh receiver _ := hfresh receiver
  position receiver _ := hposition receiver

theorem refl (b : EventBus α) (moved : Nat → Prop) : Follows b b moved :=
  of_carries (fun _ h => h) rfl (fun _ _ => rfl) fun _ h => h

theorem emit (b : EventBus α) (events : List α) (moved : Nat → Prop) :
    Follows b (b.emit events) moved := by
  obtain ⟨buffer, sent, hframe⟩ := emit_frame b events
  have hposition : (b.emit events).position? = b.position? := by rw [hframe]; rfl
  have hnext : (b.emit events).nextReceiver = b.nextReceiver := by rw [hframe]
  exact ⟨fun history h => ⟨events, h.emit events⟩, Nat.le_of_eq hnext.symm,
    fun _ _ h => by rwa [hposition], fun _ _ _ => by rw [hposition]⟩

theorem dropSender (b : EventBus α) (moved : Nat → Prop) : Follows b b.dropSender moved :=
  of_carries (fun _ h => ⟨h.sent, h.buffer⟩) rfl (fun _ _ => rfl) fun _ h => h

theorem subscribe (b : EventBus α) (moved : Nat → Prop) : Follows b b.subscribe.2 moved where
  carries history h := ⟨[], by rw [List.append_nil]; exact ⟨h.sent, h.buffer⟩⟩
  next := Nat.le_succ _
  fresh receiver hle h := by
    have hle : b.nextReceiver + 1 ≤ receiver := hle
    rw [position?_subscribe, h, if_neg (by omega)]
    rfl
  position receiver hlt _ := by
    rw [position?_subscribe, if_neg (Nat.ne_of_lt hlt), Option.or_none]

theorem unsubscribe (b : EventBus α) {receiver : Nat} (h : moved receiver) :
    Follows b (b.unsubscribe receiver) moved := by
  refine of_carries (fun _ h => ⟨h.sent, h.buffer⟩) rfl (fun other hother => ?_) fun other hnone => ?_
  · rw [position?_unsubscribe, if_neg]
    rintro rfl
    exact hother h
  · rw [position?_unsubscribe, hnone, ite_self]

theorem seek (b : EventBus α) {receiver : Nat} (h : moved receiver) (position : Nat) :
    Follows b (b.seek receiver position) moved := by
  refine of_carries (fun _ h => ⟨h.sent, h.buffer⟩) rfl (fun other hother => ?_) fun other hnone => ?_
  · rw [position?_seek, if_neg]
    rintro rfl
    exact hother h
  · rw [position?_seek]
    split
    · next heq => rw [← heq, hnone]; rfl
    · exact hnone

theorem receive (b : EventBus α) {receiver : Nat} (h : moved receiver) :
    Follows b (b.receive receiver).2 moved := by
  unfold EventBus.receive
  split
  · exact seek b h _
  · exact seek b h _
  · exact refl b moved

end Follows

end Purse.EventBus
