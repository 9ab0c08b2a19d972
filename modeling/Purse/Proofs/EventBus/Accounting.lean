import Purse.Proofs.EventBus.Backlog

/-!
# Every event is accounted for

From one act to the next a receiver comes past some of the events that were before it. Each
of them is delivered to it, or it is told that this event is gone, or it has only tried to
receive and passes over what is gone without a word (`Comes`, one act after another in
`Shows.runs`).

`receiver_accounted` says of a whole run what becomes of the events that are sent while a
receiver is there: they are delivered once and in order, or counted as missed, or still
before it; and whatever other receivers do makes no difference.
-/

namespace Purse.EventBus

variable {α : Type} {b : EventBus α} {receiver : Nat} {q : Backlog α} {act : Act α}
  {acts : List (Act α)}

/-! ## Coming past events -/

theorem answers_cons (receiver : Nat) (m : Moment α) (ms : List (Moment α)) :
    answers receiver (m :: ms) =
      (m.before.answer? receiver m.act).toList ++ answers receiver ms := by
  unfold answers
  rw [List.filterMap_cons]
  cases m.before.answer? receiver m.act <;> rfl

namespace Backlog

/-- Whoever receives comes past the event it gets, or past those it is told it has missed. -/
theorem receive_passes (q : Backlog α) (slots : Nat) :
    ∃ passed, q.unread = passed ++ (q.receive slots).2.unread ∧
      (q.receive slots).1.event?.toList.Sublist passed ∧
      (q.receive slots).1.event?.toList.length + (q.receive slots).1.missed = passed.length := by
  by_cases h : q.unread.length ≤ slots
  · obtain ⟨hreport, hevent, hleft⟩ := receive_of_kept h
    have hmissed : (q.receive slots).1.missed = 0 := by
      generalize (q.receive slots).1 = r at hreport
      cases r with
      | lagged missed => exact absurd rfl (hreport missed)
      | event e | closed | empty => rfl
    rw [hevent, hleft, hmissed]
    refine ⟨q.unread.head?.toList, ?_, List.Sublist.refl _, rfl⟩
    cases q.unread <;> rfl
  · rw [receive_of_gone (Nat.not_le.mp h)]
    refine ⟨q.unread.take (q.unread.length - slots), (List.take_append_drop _ _).symm,
      List.nil_sublist _, ?_⟩
    rw [List.length_take]
    show 0 + (q.unread.length - slots) = _
    omega

/-- Whoever tries to receive comes past all that is gone and past the event it gets. -/
theorem tryReceive_passes (q : Backlog α) (slots : Nat) :
    ∃ passed, q.unread = passed ++ (q.tryReceive slots).2.unread ∧
      (q.tryReceive slots).1.toList.Sublist passed ∧
      (q.tryReceive slots).1.toList.length + (q.unread.length - slots) = passed.length := by
  generalize hgone : q.unread.length - slots = gone
  unfold tryReceive
  rw [hgone]
  refine ⟨q.unread.take gone ++ (q.unread.drop gone).head?.toList, ?_,
    List.sublist_append_right _ _, ?_⟩
  · have hkept : (q.unread.drop gone).head?.toList ++ (q.unread.drop gone).tail =
        q.unread.drop gone := by
      cases q.unread.drop gone <;> rfl
    rw [List.append_assoc, hkept, List.take_append_drop]
  · rw [List.length_append, List.length_take]
    dsimp only
    omega

end Backlog

/-- In these moments the receiver comes past these events, from the one queue to the
other. -/
structure Comes (receiver : Nat) (ms : List (Moment α)) (q : Backlog α) (passed : List α)
    (q' : Backlog α) : Prop where
  events : q.unread ++ emitted ms = passed ++ q'.unread
  ordered : (delivered receiver ms).Sublist passed
  counted : (delivered receiver ms).length + reported receiver ms + passedOver receiver ms =
    passed.length

namespace Comes

variable {ms ms' : List (Moment α)} {q q' q'' : Backlog α} {passed passed' : List α}

theorem nil (receiver : Nat) (q : Backlog α) : Comes receiver [] q [] q where
  events := List.append_nil _
  ordered := List.Sublist.refl _
  counted := rfl

theorem append (h : Comes receiver ms q passed q') (h' : Comes receiver ms' q' passed' q'') :
    Comes receiver (ms ++ ms') q (passed ++ passed') q'' := by
  have hanswers : answers receiver (ms ++ ms') = answers receiver ms ++ answers receiver ms' :=
    List.filterMap_append
  have hdelivered : delivered receiver (ms ++ ms') =
      delivered receiver ms ++ delivered receiver ms' := by
    unfold delivered
    rw [hanswers, List.filterMap_append]
  have hreported : reported receiver (ms ++ ms') =
      reported receiver ms + reported receiver ms' := by
    unfold reported
    rw [hanswers, List.map_append, List.sum_append]
  have hover : passedOver receiver (ms ++ ms') =
      passedOver receiver ms + passedOver receiver ms' := by
    unfold passedOver
    rw [List.map_append, List.sum_append]
  refine ⟨?_, hdelivered ▸ h.ordered.append h'.ordered, ?_⟩
  · unfold emitted
    rw [List.flatMap_append, ← List.append_assoc]
    show (q.unread ++ emitted ms) ++ emitted ms' = _
    rw [h.events, List.append_assoc, h'.events, List.append_assoc]
  · have hfirst := h.counted
    have hsecond := h'.counted
    rw [hdelivered, hreported, hover, List.length_append, List.length_append]
    omega

/-- The receiver gets nothing, and what is sent stands at the end. -/
theorem of_none {m : Moment α} (ha : m.before.answer? receiver m.act = none)
    (hover : m.passedOver receiver = 0) (hq : q.unread ++ m.sent = q'.unread) :
    Comes receiver [m] q [] q' := by
  have hanswers : answers receiver [m] = [] := by
    rw [answers_cons, ha]
    rfl
  have hdelivered : delivered receiver [m] = [] := by
    unfold delivered
    rw [hanswers, List.filterMap_nil]
  have hreported : reported receiver [m] = 0 := by
    unfold reported
    rw [hanswers]
    rfl
  have hpassedOver : EventBus.passedOver receiver [m] = 0 := hover
  have hemitted : emitted [m] = m.sent := List.flatMap_singleton _ _
  refine ⟨?_, ?_, ?_⟩
  · rw [hemitted, List.nil_append]
    exact hq
  · exact hdelivered.symm ▸ List.Sublist.refl []
  · rw [hdelivered, hreported, hpassedOver]
    rfl

/-- The receiver gets something, and comes past the beginning of what is before it. -/
theorem of_some {m : Moment α} {a : Answer α} (ha : m.before.answer? receiver m.act = some a)
    (hsent : m.sent = []) (hq : q.unread = passed ++ q'.unread)
    (hordered : a.event?.toList.Sublist passed)
    (hcounted : a.event?.toList.length + a.missed + m.passedOver receiver = passed.length) :
    Comes receiver [m] q passed q' := by
  have hanswers : answers receiver [m] = [a] := by
    rw [answers_cons, ha]
    rfl
  have hdelivered : delivered receiver [m] = a.event?.toList := by
    unfold delivered
    rw [hanswers]
    cases he : a.event? with
    | none => rw [List.filterMap_cons_none he]; rfl
    | some e => rw [List.filterMap_cons_some he]; rfl
  have hreported : reported receiver [m] = a.missed := by
    unfold reported
    rw [hanswers]
    rfl
  have hpassedOver : EventBus.passedOver receiver [m] = m.passedOver receiver := Nat.add_zero _
  have hemitted : emitted [m] = [] := (List.flatMap_singleton _ _).trans hsent
  refine ⟨?_, ?_, ?_⟩
  · rw [hemitted, List.append_nil]
    exact hq
  · rw [hdelivered]
    exact hordered
  · rw [hdelivered, hreported, hpassedOver]
    exact hcounted

end Comes

/-- What one act brings a receiver past. -/
theorem Shows.comes (h : b.Shows receiver q) (hstays : act ≠ .unsubscribe receiver) :
    ∃ passed q', (b.perform act).Shows receiver q' ∧ Comes receiver [⟨b, act⟩] q passed q' := by
  have hsenders := h.senders
  cases act with
  | subscribe | unsubscribe =>
    exact ⟨[], q, h.perform_of_not rfl hstays, .of_none rfl rfl (List.append_nil _)⟩
  | emit events =>
    refine ⟨[], _, h.perform_of_concerns rfl, .of_none rfl rfl ?_⟩
    unfold Moment.sent Backlog.perform
    dsimp only
    rw [hsenders]
    split
    · exact List.append_nil _
    · rfl
  | addSender =>
    refine ⟨[], _, h.perform_of_concerns rfl, .of_none rfl rfl ?_⟩
    unfold Backlog.perform
    dsimp only
    split <;> exact List.append_nil _
  | dropSender =>
    exact ⟨[], _, h.perform_of_concerns rfl, .of_none rfl rfl (List.append_nil _)⟩
  | receive r =>
    by_cases hr : r = receiver
    · subst hr
      obtain ⟨passed, hq, hordered, hcounted⟩ := q.receive_passes b.slots
      have ha : b.answer? r (.receive r) = some (.receipt (b.receive r).1) := if_pos rfl
      rw [h.receive.1] at ha
      exact ⟨passed, _, h.receive.2, .of_some ha rfl hq hordered hcounted⟩
    · have hact : (Act.receive r : Act α).concerns receiver = false := decide_eq_false hr
      exact ⟨[], q, h.perform_of_not hact hstays,
        .of_none (b.answer?_of_not hact) rfl (List.append_nil _)⟩
  | tryReceive r =>
    by_cases hr : r = receiver
    · subst hr
      obtain ⟨passed, hq, hordered, hcounted⟩ := q.tryReceive_passes b.slots
      have ha : b.answer? r (.tryReceive r) = some (.next (b.tryReceive r).1) := if_pos rfl
      rw [h.tryReceive.1] at ha
      have hover : Moment.passedOver r ⟨b, .tryReceive r⟩ = q.unread.length - b.slots := by
        rw [← h.unread]
        exact if_pos rfl
      refine ⟨passed, _, h.tryReceive.2, .of_some ha rfl hq hordered ?_⟩
      rw [hover]
      exact hcounted
    · have hact : (Act.tryReceive r : Act α).concerns receiver = false := decide_eq_false hr
      exact ⟨[], q, h.perform_of_not hact hstays,
        .of_none (b.answer?_of_not hact) (if_neg hr) (List.append_nil _)⟩

/-! ## Whole runs -/

theorem Shows.runs (h : b.Shows receiver q) (hstays : .unsubscribe receiver ∉ acts) :
    ∃ passed q', (b.after acts).Shows receiver q' ∧
      Comes receiver (b.moments acts) q passed q' := by
  induction acts generalizing b q with
  | nil => exact ⟨[], q, h, .nil receiver q⟩
  | cons act acts ih =>
    obtain ⟨hact, hacts⟩ := List.ne_and_not_mem_of_not_mem_cons hstays
    obtain ⟨passed, q₁, h₁, hcomes⟩ := h.comes (Ne.symm hact)
    obtain ⟨passed', q', hshows, hcomes'⟩ := ih h₁ hacts
    exact ⟨_, q', hshows, hcomes.append hcomes'⟩

/-- Whatever happens, the receiver has some backlog before it. -/
theorem Shows.moments (h : b.Shows receiver q) (hstays : .unsubscribe receiver ∉ acts)
    {m : Moment α} (hm : m ∈ b.moments acts) :
    m.before.slots = b.slots ∧ ∃ q, m.before.Shows receiver q := by
  induction acts generalizing b q with
  | nil => cases hm
  | cons act acts ih =>
    rcases List.mem_cons.mp hm with rfl | hm
    · exact ⟨rfl, q, h⟩
    · obtain ⟨hact, hacts⟩ := List.ne_and_not_mem_of_not_mem_cons hstays
      obtain ⟨_, q₁, h₁, -⟩ := h.comes (Ne.symm hact)
      obtain ⟨hslots, hshows⟩ := ih h₁ hacts hm
      exact ⟨hslots.trans (slots_perform b act), hshows⟩

/-- The receiver gets all that its queue brings, and what does not concern it makes no
difference. -/
theorem Shows.answers (h : b.Shows receiver q) (hstays : .unsubscribe receiver ∉ acts) :
    answers receiver (b.moments acts) =
      q.answers b.slots (acts.filter (·.concerns receiver)) := by
  induction acts generalizing b q with
  | nil => rfl
  | cons act acts ih =>
    obtain ⟨hact, hacts⟩ := List.ne_and_not_mem_of_not_mem_cons hstays
    rw [EventBus.moments, answers_cons]
    cases hconcerns : act.concerns receiver with
    | true =>
      rw [List.filter_cons_of_pos hconcerns, h.answer?_of_concerns hconcerns,
        ih (h.perform_of_concerns hconcerns) hacts, slots_perform]
      rfl
    | false =>
      rw [List.filter_cons_of_neg (by simp [hconcerns]), b.answer?_of_not hconcerns,
        ih (h.perform_of_not hconcerns (Ne.symm hact)) hacts, slots_perform]
      rfl

/-! ## From the beginning -/

/-- The bus keeps the end of what was sent, and who is still to come has no place on it. -/
structure Founded (b : EventBus α) : Prop where
  carries : ∃ history, b.Carries history
  fresh : ∀ receiver, b.nextReceiver ≤ receiver → b.position? receiver = none

namespace Founded

variable {b' : EventBus α} {moved : Nat → Prop}

theorem new (capacity : Nat) : (EventBus.new capacity : EventBus α).Founded :=
  ⟨⟨[], carries_new capacity⟩, fun _ _ => rfl⟩

theorem of_follows (h : b.Founded) (hf : Follows b b' moved) : b'.Founded := by
  obtain ⟨history, hc⟩ := h.carries
  obtain ⟨more, hc'⟩ := hf.carries history hc
  refine ⟨⟨_, hc'⟩, fun receiver hle => hf.fresh receiver hle ?_⟩
  exact h.fresh receiver (Nat.le_trans hf.next hle)

theorem receive (h : b.Founded) (receiver : Nat) : (b.receive receiver).2.Founded := by
  have hf : Follows b (b.receive receiver).2 fun _ => True := Follows.receive b trivial
  exact h.of_follows hf

theorem perform (h : b.Founded) (act : Act α) : (b.perform act).Founded := by
  unfold EventBus.perform
  cases act with
  | subscribe =>
    dsimp only
    split
    · exact h
    · exact h.of_follows (Follows.subscribe b fun _ => True)
  | emit events =>
    dsimp only
    split
    · exact h
    · exact h.of_follows (Follows.emit b events fun _ => True)
  | addSender =>
    dsimp only
    split
    · exact h
    · exact ⟨h.carries.imp fun _ hc => ⟨hc.sent, hc.buffer⟩, h.fresh⟩
  | dropSender => exact h.of_follows (Follows.dropSender b fun _ => True)
  | receive r => exact h.receive r
  | tryReceive r =>
    dsimp only
    rw [tryReceive_eq]
    have hreceive := h.receive r
    generalize b.receive r = p at hreceive
    obtain ⟨r', b'⟩ := p
    cases r' with
    | lagged missed => exact hreceive.receive r
    | event e | closed | empty => exact hreceive
  | unsubscribe r =>
    have hf : Follows b (b.unsubscribe r) fun _ => True := Follows.unsubscribe b trivial
    exact h.of_follows hf

theorem after (h : b.Founded) (acts : List (Act α)) : (b.after acts).Founded := by
  induction acts generalizing b with
  | nil => exact h
  | cons act acts ih => exact ih (h.perform act)

/-- Whoever joins has nothing before him yet. -/
theorem subscribe (h : b.Founded) : b.subscribe.2.Shows b.nextReceiver ⟨[], b.senders⟩ := by
  obtain ⟨history, hc⟩ := h.carries
  refine ⟨⟨history, history.length, ⟨hc.sent, hc.buffer⟩, ?_, Nat.le_refl _, ?_⟩, rfl,
    Nat.lt_succ_self _⟩
  · rw [position?_subscribe, h.fresh _ (Nat.le_refl _), if_pos rfl, hc.sent]
    rfl
  · exact List.drop_length.symm

end Founded

theorem slots_after (b : EventBus α) (acts : List (Act α)) : (b.after acts).slots = b.slots := by
  induction acts generalizing b with
  | nil => rfl
  | cons act acts ih => exact (ih (b.perform act)).trans (slots_perform b act)

/-! ## The account -/

theorem eq_event_of_event? {r : Receipt α} {e : α} (h : r.event? = some e) :
    r = .event e := by
  cases r with
  | event e' =>
    cases h
    rfl
  | lagged | closed | empty => cases h

/-- Whoever has come past few enough events has all that is kept before it. -/
theorem Shows.buffer (h : b.Shows receiver q) (hle : b.slots ≤ q.unread.length) :
    b.buffer = q.unread.drop (q.unread.length - b.slots) := by
  obtain ⟨history, position, hc, -, hposition, hunread⟩ := h.placed
  rw [hunread, List.length_drop] at hle
  rw [hc.buffer, hunread, List.length_drop, List.drop_drop]
  congr 1
  omega

/-- After a report the receiver has before it what is kept, and gets the oldest of it. -/
theorem Shows.resumed (h : b.Shows receiver q) (hslots : 0 < b.slots)
    (hgone : b.slots < b.unread receiver) :
    (b.receive receiver).2.unread receiver = b.slots ∧
      (b.receive receiver).2.buffer.length = b.slots ∧
      ∃ e, (b.receive receiver).2.buffer.head? = some e ∧
        ((b.receive receiver).2.receive receiver).1 = .event e := by
  rw [h.unread] at hgone
  have hleft := h.receive.2
  have hsame := slots_receive b receiver
  rw [Backlog.receive_of_gone hgone] at hleft
  generalize (b.receive receiver).2 = b' at hleft hsame
  have hlength : (q.unread.drop (q.unread.length - b.slots)).length = b.slots := by
    rw [List.length_drop]
    omega
  have hbuffer := hleft.buffer (Nat.le_of_eq (hsame.trans hlength.symm))
  rw [hlength, hsame, Nat.sub_self, List.drop_zero] at hbuffer
  refine ⟨hleft.unread.trans hlength, (congrArg List.length hbuffer).trans hlength, ?_⟩
  obtain ⟨-, hevent, -⟩ := Backlog.receive_of_kept (q := { q with unread := _ })
    (Nat.le_of_eq hlength)
  rw [hleft.receive.1, hbuffer, hsame]
  generalize q.unread.drop (q.unread.length - b.slots) = kept at hlength hevent
  cases kept with
  | nil =>
    have hzero : 0 = b.slots := hlength
    omega
  | cons e kept => exact ⟨e, rfl, eq_event_of_event? hevent⟩

theorem Shows.lagged_iff (h : b.Shows receiver q) (missed : Nat) :
    (b.receive receiver).1 = .lagged missed ↔
      b.slots < b.unread receiver ∧ missed = b.unread receiver - b.slots := by
  rw [h.receive.1, h.unread]
  by_cases hgone : b.slots < q.unread.length
  · rw [Backlog.receive_of_gone hgone]
    constructor
    · intro hmissed
      cases hmissed
      exact ⟨hgone, rfl⟩
    · rintro ⟨-, rfl⟩
      rfl
  · constructor
    · intro hmissed
      exact absurd hmissed ((Backlog.receive_of_kept (Nat.not_lt.mp hgone)).1 missed)
    · intro hmissed
      exact absurd hmissed.1 hgone

theorem Shows.closed_iff (h : b.Shows receiver q) :
    (b.receive receiver).1 = .closed ↔ b.senders = 0 ∧ b.unread receiver = 0 := by
  rw [h.receive.1, h.unread, ← h.senders]
  by_cases hgone : b.slots < q.unread.length
  · rw [Backlog.receive_of_gone hgone]
    exact ⟨nofun, fun hclosed => absurd hclosed.2 (by omega)⟩
  · unfold Backlog.receive
    dsimp only
    rw [if_pos (Nat.sub_eq_zero_of_le (Nat.not_lt.mp hgone))]
    cases q.unread with
    | cons e unread => exact ⟨nofun, fun hclosed => absurd hclosed.2 (Nat.succ_ne_zero _)⟩
    | nil =>
      by_cases hs : q.senders = 0
      · simp [hs]
      · simp [hs]

/-- What becomes of the events while a receiver is there that has just joined. -/
structure Accounted (b : EventBus α) (receiver : Nat) (acts : List (Act α)) : Prop where
  /-- It gets what a queue of its own would bring, whatever other receivers do. -/
  alone : answers receiver (b.moments acts) =
    Backlog.answers b.slots ⟨[], b.senders⟩ (acts.filter (·.concerns receiver))
  /-- What is delivered to it has been sent and is not still before it; no event comes twice,
  and none before an earlier one. -/
  ordered : (delivered receiver (b.moments acts)).Sublist
    ((emitted (b.moments acts)).take
      ((emitted (b.moments acts)).length - (b.after acts).unread receiver))
  /-- All that was sent has been delivered, reported as missed, passed over without a word, or
  is still before it. -/
  counted : (delivered receiver (b.moments acts)).length + reported receiver (b.moments acts) +
    passedOver receiver (b.moments acts) + (b.after acts).unread receiver =
      (emitted (b.moments acts)).length
  /-- It is told that events are gone exactly if more are unread than are kept, and how many. -/
  lagged : ∀ m ∈ b.moments acts, m.act = .receive receiver → ∀ missed,
    (m.before.receive receiver).1 = .lagged missed ↔
      b.slots < m.before.unread receiver ∧ missed = m.before.unread receiver - b.slots
  /-- Then it goes on with the oldest event that is kept. -/
  resumed : ∀ m ∈ b.moments acts, m.act = .receive receiver →
    b.slots < m.before.unread receiver →
      m.after.unread receiver = b.slots ∧ m.after.buffer.length = b.slots ∧
      ∃ e, m.after.buffer.head? = some e ∧ (m.after.receive receiver).1 = .event e
  /-- To try is to receive, past the report. -/
  tried : ∀ m ∈ b.moments acts, m.act = .tryReceive receiver →
    m.before.tryReceive receiver = match m.before.receive receiver with
      | (.lagged _, b) => ((b.receive receiver).1.event?, (b.receive receiver).2)
      | (r, b) => (r.event?, b)
  /-- It is told that the bus is closed exactly if nobody can send and nothing is before it. -/
  closed : ∀ m ∈ b.moments acts, m.act = .receive receiver →
    ((m.before.receive receiver).1 = .closed ↔
      m.before.senders = 0 ∧ m.before.unread receiver = 0)

theorem Shows.accounted (h : b.Shows receiver ⟨[], b.senders⟩) (hslots : 0 < b.slots)
    (hstays : .unsubscribe receiver ∉ acts) : b.Accounted receiver acts := by
  obtain ⟨passed, q', hshows, hcomes⟩ := h.runs hstays
  have hevents : emitted (b.moments acts) = passed ++ q'.unread := hcomes.events
  have hlength : (emitted (b.moments acts)).length =
      passed.length + (b.after acts).unread receiver := by
    rw [hevents, List.length_append, hshows.unread]
  refine ⟨h.answers hstays, ?_, ?_, ?_, ?_, fun m _ _ => tryReceive_eq _ _, ?_⟩
  · have hpassed : (emitted (b.moments acts)).take
        ((emitted (b.moments acts)).length - (b.after acts).unread receiver) = passed := by
      rw [hlength, Nat.add_sub_cancel, hevents, List.take_left]
    rw [hpassed]
    exact hcomes.ordered
  · rw [hlength, hcomes.counted]
  · intro m hm _
    obtain ⟨hsame, q, hq⟩ := h.moments hstays hm
    rw [← hsame]
    exact hq.lagged_iff
  · intro m hm hact
    obtain ⟨hsame, q, hq⟩ := h.moments hstays hm
    have hafter : m.after = (m.before.receive receiver).2 := by
      unfold Moment.after
      rw [hact]
      rfl
    rw [hafter, ← hsame]
    exact hq.resumed (hsame ▸ hslots)
  · intro m hm _
    obtain ⟨-, q, hq⟩ := h.moments hstays hm
    exact hq.closed_iff

/-- Whatever has been done with a bus when a receiver joins, and whatever is done with it as
long as this receiver is there, the receiver gets all that it should. -/
theorem receiver_accounted (capacity : Nat) (before acts : List (Act α)) :
    let b := (new capacity).after before
    .unsubscribe b.nextReceiver ∉ acts →
      b.slots = (max capacity 1).nextPowerOfTwo ∧
        b.subscribe.2.Accounted b.nextReceiver acts := by
  intro b hstays
  have hslots : b.slots = (max capacity 1).nextPowerOfTwo := slots_after _ before
  have hpos : 0 < b.subscribe.2.slots := by
    show 0 < b.slots
    rw [hslots]
    exact Nat.pos_of_isPowerOfTwo (Nat.isPowerOfTwo_nextPowerOfTwo _)
  exact ⟨hslots, ((Founded.new capacity).after before).subscribe.accounted hpos hstays⟩

/-- Two receivers of a bus for three events, which keeps four. The second one is overrun twice
and in the end gets what is left. -/
theorem receiver_accounted_overrun :
    let b := (new 3).after [.subscribe, .emit [1, 2]]
    let acts : List (Act Nat) := [.emit [3, 4, 5, 6, 7, 8], .receive 1, .receive 1, .receive 0,
      .emit [9, 10, 11], .tryReceive 1, .addSender, .dropSender, .dropSender, .receive 1,
      .receive 1, .receive 1, .receive 1]
    .unsubscribe b.nextReceiver ∉ acts ∧ b.nextReceiver = 1 ∧ b.slots = 4 ∧
      answers 1 (b.subscribe.2.moments acts) = [.receipt (.lagged 2), .receipt (.event 5),
        .next (some 8), .receipt (.event 9), .receipt (.event 10), .receipt (.event 11),
        .receipt .closed] ∧
      passedOver 1 (b.subscribe.2.moments acts) = 2 ∧ b.subscribe.2.Accounted 1 acts := by
  intro b acts
  have hstays : .unsubscribe b.nextReceiver ∉ acts := by decide
  obtain ⟨hslots, haccounted⟩ := receiver_accounted 3 [.subscribe, .emit [1, 2]] acts hstays
  exact ⟨hstays, rfl, hslots.trans (by decide +kernel), by decide +kernel, by decide +kernel,
    haccounted⟩

end Purse.EventBus
