import Purse.Proofs.Relay.Batches
import Purse.Proofs.Relay.Delivery

/-!
# When a page learns that mixing has ended

A subscription keeps a mark that its wallet's mixer has ended, until it is asked for it.
The mark is made where a listener gets the notification, and nowhere else
(`completed_iff`); so a notification that is gone before the listener comes to it makes no
mark. Of every such notification that is announced to a listener that goes on, either it
is delivered, and then the page is told so and the mixer's state is told to all pages, or
it is overrun, and then there is but a refresh of the accounts.

Main statement: `completion_told`.
-/

namespace Purse.Relay

variable {ε : Type} {r : Relay ε} {i : Nat} {l : Listener}

/-! ## The mark -/

/-- Whether a page would be told now that the mixer has ended. -/
def completed (r : Relay ε) (i : Nat) : Bool :=
  (r.takeMixerCompleted i).1

/-- The listener gets word that the mixer of its wallet has ended. -/
def Moment.Completes (m : Moment ε) (i : Nat) : Prop :=
  ∃ w, m.heard? = some (i, w, .event (.mixerEnded w))

theorem reason?_mixerEnded (w : WalletId) :
    (Receipt.event (Notification.mixerEnded w)).reason? w = some .mixer :=
  if_neg (fun h => h rfl)

theorem completed_eq (hl : r.listeners[i]? = some l) : r.completed i = l.mixerCompleted := by
  unfold completed takeMixerCompleted
  rw [hl]
  rfl

variable [Engine ε]

omit [Engine ε] in
theorem not_completes_of_none {job : Nat} (h : r.hears? job = none) :
    ¬Moment.Completes ⟨r, .step job⟩ i := by
  rintro ⟨w, hheard⟩
  exact nomatch h.symm.trans hheard

omit [Engine ε] in
theorem completes_iff {job subscription : Nat} {w : WalletId} {receipt : Receipt Notification}
    (h : r.hears? job = some (subscription, w, receipt)) :
    Moment.Completes ⟨r, .step job⟩ i ↔ subscription = i ∧ receipt = .event (.mixerEnded w) := by
  constructor
  · rintro ⟨w', hheard⟩
    cases h.symm.trans hheard
    exact ⟨rfl, rfl⟩
  · rintro ⟨rfl, rfl⟩
    exact ⟨w, h⟩

omit [Engine ε] in
/-- A change of a listener that leaves its mark alone. -/
theorem exists_marked {r' : Relay ε} {subscription : Nat} {f : Listener → Listener}
    {completes : Prop} (hl : r.listeners[i]? = some l)
    (hlisteners : r'.listeners = (r.modifyListener subscription f).listeners)
    (hf : ∀ l, (f l).mixerCompleted = l.mixerCompleted) (hnot : ¬completes) :
    ∃ l', r'.listeners[i]? = some l' ∧ (l'.mixerCompleted ↔ l.mixerCompleted ∨ completes) := by
  refine ⟨if subscription = i then f l else l, ?_, ?_⟩
  · rw [hlisteners, getElem?_modifyListener, hl]
    rfl
  · rw [or_iff_left hnot]
    split
    · rw [hf]
    · rfl

theorem step_listen {job subscription : Nat}
    (hjob : r.jobs.lookup job = some (.listen subscription)) :
    r.step job = r.hear job subscription := by
  unfold step
  rw [hjob]

omit [Engine ε] in
/-- A change that leaves all listeners alone. -/
theorem exists_kept {r' : Relay ε} {completes : Prop} (hl : r.listeners[i]? = some l)
    (hlisteners : r'.listeners = r.listeners) (hnot : ¬completes) :
    ∃ l', r'.listeners[i]? = some l' ∧ (l'.mixerCompleted ↔ l.mixerCompleted ∨ completes) :=
  ⟨l, by rw [hlisteners, hl], (or_iff_left hnot).symm⟩

/-- What a notification does to the marks. -/
theorem dispatch_completed {subscription : Nat} {w : WalletId} {n : Notification}
    {completes : Prop} (hl : r.listeners[i]? = some l)
    (hiff : completes ↔ subscription = i ∧ n = .mixerEnded w) :
    ∃ l', (r.dispatch subscription w n).listeners[i]? = some l' ∧
      (l'.mixerCompleted ↔ l.mixerCompleted ∨ completes) := by
  unfold dispatch
  by_cases hw : n.wallet ≠ w
  · rw [if_pos hw]
    refine exists_kept hl rfl fun h => hw ?_
    rw [(hiff.mp h).2]
    rfl
  · rw [if_neg hw]
    cases n with
    | newTransaction | blockAttached | mixerStarted =>
      exact exists_kept hl rfl fun h => nomatch (hiff.mp h).2
    | mixerEnded w' =>
      have hw : w' = w := not_not.mp hw
      subst hw
      by_cases hi : subscription = i
      · have hcompletes := hiff.mpr ⟨hi, rfl⟩
        subst hi
        have hmarked := getElem?_modifyListener_self hl fun l => { l with mixerCompleted := true }
        exact ⟨{ l with mixerCompleted := true }, hmarked, iff_of_true rfl (Or.inr hcompletes)⟩
      · refine ⟨l, ?_, (or_iff_left fun h => hi (hiff.mp h).1).symm⟩
        refine (getElem?_modifyListener _ subscription _ i).trans ?_
        rw [hl, Option.map_some, if_neg hi]

/-- A listener makes its mark when it gets the word, and leaves it alone otherwise. -/
theorem hear_completed {job subscription : Nat}
    (hjob : r.jobs.lookup job = some (.listen subscription)) (hl : r.listeners[i]? = some l) :
    ∃ l', (r.hear job subscription).listeners[i]? = some l' ∧
      (l'.mixerCompleted ↔ l.mixerCompleted ∨ Moment.Completes ⟨r, .step job⟩ i) := by
  have hhears := hears?_listen hjob
  unfold hear
  cases hl' : r.listeners[subscription]? with
  | none =>
    rw [hl'] at hhears
    exact exists_kept hl rfl (not_completes_of_none hhears)
  | some l' =>
    rw [hl'] at hhears
    dsimp only at hhears ⊢
    cases hlistening : l'.listening with
    | ended =>
      rw [hlistening] at hhears
      exact exists_kept hl rfl (not_completes_of_none hhears)
    | leaving =>
      rw [hlistening] at hhears
      exact exists_marked hl rfl (fun _ => rfl) (not_completes_of_none hhears)
    | going =>
      dsimp only
      by_cases hcancelled : l'.cancelled
      · rw [if_neg (fun h => h.2 hcancelled)] at hhears
        rw [if_pos hcancelled]
        exact exists_marked hl rfl (fun _ => rfl) (not_completes_of_none hhears)
      · rw [if_pos ⟨hlistening, hcancelled⟩] at hhears
        rw [if_neg hcancelled]
        cases hs : r.sources[l'.source]? with
        | none =>
          rw [hs] at hhears
          exact exists_marked hl rfl (fun _ => rfl) (not_completes_of_none hhears)
        | some s =>
          rw [hs, Option.map_some] at hhears
          dsimp only
          cases hreceived : s.bus.receive l'.receiver with
          | mk receipt bus =>
            rw [hreceived] at hhears
            have hiff := completes_iff (i := i) hhears
            cases receipt with
            | empty | lagged => exact exists_kept hl rfl fun h => nomatch (hiff.mp h).2
            | closed => exact exists_marked hl rfl (fun _ => rfl) fun h => nomatch (hiff.mp h).2
            | event n =>
              rw [Receipt.event.injEq] at hiff
              exact dispatch_completed hl hiff

omit [Engine ε] in
theorem hears?_of_lookup {job : Nat}
    (h : ∀ subscription, r.jobs.lookup job ≠ some (.listen subscription)) : r.hears? job = none := by
  unfold hears?
  split
  · next heq => exact absurd heq (h _)
  · rfl

/-- In a step no mark goes away. -/
theorem step_completed (hl : r.listeners[i]? = some l) (job : Nat) :
    ∃ l', (r.step job).listeners[i]? = some l' ∧
      (l'.mixerCompleted ↔ l.mixerCompleted ∨ Moment.Completes ⟨r, .step job⟩ i) := by
  by_cases hlisten : ∃ subscription, r.jobs.lookup job = some (.listen subscription)
  · obtain ⟨subscription, hjob⟩ := hlisten
    rw [step_listen hjob]
    exact hear_completed hjob hl
  · have hnone : ∀ subscription, r.jobs.lookup job ≠ some (.listen subscription) :=
      fun subscription hjob => hlisten ⟨subscription, hjob⟩
    have hnot : ¬Moment.Completes ⟨r, .step job⟩ i := not_completes_of_none (hears?_of_lookup hnone)
    have hlisteners : (r.step job).listeners = r.listeners := by
      have hstep := step_cases r job
      generalize r.step job = r' at hstep
      cases hstep with
      | idle | abandons => rfl
      | hears hjob => exact absurd hjob (hnone _)
      | @goes _ _ t => cases t <;> rfl
    exact exists_kept hl hlisteners hnot

/-- A mark is there from when it is made until it is asked for. -/
theorem perform_completed (hl : r.listeners[i]? = some l) (a : Act ε) :
    ∃ l', (r.perform a).listeners[i]? = some l' ∧ (l'.mixerCompleted ↔
      (l.mixerCompleted ∨ Moment.Completes ⟨r, a⟩ i) ∧ a ≠ .takeMixerCompleted i) := by
  -- acts that have nothing to do with marks
  have haside : ∀ r' : Relay ε, ¬Moment.Completes ⟨r, a⟩ i → a ≠ .takeMixerCompleted i →
      (∃ subscription f, r'.listeners = (r.modifyListener subscription f).listeners ∧
        ∀ l, (f l).mixerCompleted = l.mixerCompleted) →
      ∃ l', r'.listeners[i]? = some l' ∧ (l'.mixerCompleted ↔
        (l.mixerCompleted ∨ Moment.Completes ⟨r, a⟩ i) ∧ a ≠ .takeMixerCompleted i) := by
    rintro r' hnot hask ⟨subscription, f, hlisteners, hf⟩
    obtain ⟨l', hl', hiff⟩ := exists_marked hl hlisteners hf hnot
    exact ⟨l', hl', hiff.trans (and_iff_left hask).symm⟩
  have hsame : ∀ r' : Relay ε, ¬Moment.Completes ⟨r, a⟩ i → a ≠ .takeMixerCompleted i →
      r'.listeners = r.listeners → ∃ l', r'.listeners[i]? = some l' ∧ (l'.mixerCompleted ↔
        (l.mixerCompleted ∨ Moment.Completes ⟨r, a⟩ i) ∧ a ≠ .takeMixerCompleted i) :=
    fun r' hnot hask hlisteners => ⟨l, by rw [hlisteners, hl],
      (and_iff_left hask |>.trans (or_iff_left hnot)).symm⟩
  have hmute : (∀ job, a ≠ .step job) → ¬Moment.Completes ⟨r, a⟩ i := by
    rintro hstep ⟨w, hheard⟩
    cases a with
    | step job => exact hstep job rfl
    | _ => cases hheard
  cases a with
  | step job =>
    obtain ⟨l', hl', hiff⟩ := step_completed hl job
    exact ⟨l', hl', hiff.trans (and_iff_left nofun).symm⟩
  | takeMixerCompleted subscription =>
    refine ⟨if subscription = i then { l with mixerCompleted := false } else l, ?_, ?_⟩
    · refine (getElem?_modifyListener _ subscription _ i).trans ?_
      rw [hl]
      rfl
    · rw [or_iff_left (hmute nofun)]
      by_cases hi : subscription = i
      · rw [if_pos hi]
        exact iff_of_false Bool.false_ne_true fun h => h.2 (congrArg _ hi)
      · rw [if_neg hi]
        refine (and_iff_left fun h => hi ?_).symm
        cases h
        rfl
  | register page w source =>
    rcases perform_register r page w source with heq | ⟨s, -, heq⟩ <;> rw [heq]
    · exact hsame _ (hmute nofun) nofun rfl
    · refine ⟨l, ?_, ?_⟩
      · exact (List.getElem?_append_left (List.getElem?_eq_some_iff.mp hl).1).trans hl
      · exact ((and_iff_left nofun).trans (or_iff_left (hmute nofun))).symm
  | deregister page =>
    rcases perform_deregister r page with heq | ⟨_, _, heq⟩ <;> rw [heq]
    · exact hsame _ (hmute nofun) nofun rfl
    · exact haside _ (hmute nofun) nofun ⟨_, _, rfl, fun _ => rfl⟩
  | cancel | unsubscribe => exact haside _ (hmute nofun) nofun ⟨_, _, rfl, fun _ => rfl⟩
  | others registry =>
    rcases perform_others r registry with heq | ⟨-, heq⟩ <;> rw [heq] <;>
      exact hsame _ (hmute nofun) nofun rfl
  | release | addSource | setRefusing | announce | closeSource | watch | takeTickets =>
    exact hsame _ (hmute nofun) nofun rfl

omit [Engine ε] in
/-- A page is told that the mixer has ended, or would be told so now. -/
def Told (ms : List (Moment ε)) (r : Relay ε) (i : Nat) : Prop :=
  r.completed i ∨ ∃ m ∈ ms, m.act = .takeMixerCompleted i ∧ m.before.completed i

omit [Engine ε] in
theorem told_cons (m : Moment ε) (ms : List (Moment ε)) (r : Relay ε) :
    Told (m :: ms) r i ↔ m.act = .takeMixerCompleted i ∧ m.before.completed i ∨ Told ms r i := by
  unfold Told
  rw [List.exists_mem_cons_iff]
  exact or_left_comm

/-- A page is told so exactly if it already would have been, or its listener has got the
word since. -/
theorem told_iff (hl : r.listeners[i]? = some l) (acts : List (Act ε)) :
    Told (r.moments acts) (r.after acts) i ↔
      r.completed i ∨ ∃ m ∈ r.moments acts, m.Completes i := by
  induction acts generalizing r l with
  | nil =>
    have hnone : ∀ p : Moment ε → Prop, ¬∃ m ∈ r.moments [], p m := fun p ⟨_, hm, _⟩ => nomatch hm
    exact (or_iff_left (hnone _)).trans (or_iff_left (hnone _)).symm
  | cons a acts ih =>
    obtain ⟨l', hl', hiff⟩ := perform_completed hl a
    have hrest := ih hl'
    rw [completed_eq hl', hiff] at hrest
    show Told (⟨r, a⟩ :: (r.perform a).moments acts) _ i ↔
      _ ∨ ∃ m ∈ ⟨r, a⟩ :: (r.perform a).moments acts, _
    rw [told_cons, List.exists_mem_cons_iff, completed_eq hl]
    by_cases ha : a = .takeMixerCompleted i
    · -- asking answers the mark that is there, and takes it away
      subst ha
      have hmute : ¬Moment.Completes ⟨r, .takeMixerCompleted i⟩ i := fun ⟨_, hheard⟩ => nomatch hheard
      rw [or_iff_right fun h => h.2 rfl] at hrest
      rw [and_iff_right rfl, or_iff_right hmute]
      exact or_congr_right hrest
    · rw [or_iff_right fun h => ha h.1]
      rw [and_iff_left ha, or_assoc] at hrest
      exact hrest

omit [Engine ε] in
theorem Moment.Completes.call? {m : Moment ε} (h : m.Completes i) :
    ∃ w, m.call? = some (i, w, .mixer) := by
  obtain ⟨w, hheard⟩ := h
  exact ⟨w, call?_of_heard? hheard (reason?_mixerEnded w)⟩

/-- Whoever gets the word has made the mark. -/
theorem Moment.Completes.marks {m : Moment ε} (h : m.Completes i)
    (hl : m.before.listeners[i]? = some l) :
    ∃ l', m.after.listeners[i]? = some l' ∧ m.after.completed i := by
  obtain ⟨l', hl', hiff⟩ := perform_completed hl m.act
  refine ⟨l', hl', ?_⟩
  show (m.before.perform m.act).completed i
  rw [completed_eq hl', hiff]
  refine ⟨Or.inr h, fun ha => ?_⟩
  obtain ⟨w, hheard⟩ := h
  unfold heard? at hheard
  rw [ha] at hheard
  cases hheard

/-! ## Either delivered or overrun -/

theorem sources_dispatch (r : Relay ε) (subscription : Nat) (w : WalletId) (n : Notification) :
    (r.dispatch subscription w n).sources = r.sources := by
  unfold dispatch
  split
  · rfl
  · cases n <;> rfl

/-- Whoever gets a notification or word of missed ones has moved on by that. -/
theorem heard_moves {m : Moment ε} {w : WalletId} {receipt : Receipt Notification}
    (h : m.heard? = some (i, w, receipt)) (hclosed : receipt ≠ .closed) (hempty : receipt ≠ .empty) :
    ∃ l s s', m.before.listeners[i]? = some l ∧ m.before.sources[l.source]? = some s ∧
      receipt = (s.bus.receive l.receiver).1 ∧ m.after.sources[l.source]? = some s' ∧
      s'.bus = (s.bus.receive l.receiver).2 := by
  obtain ⟨r, a⟩ := m
  cases a with
  | step job =>
    have h : r.hears? job = some (i, w, receipt) := h
    by_cases hlisten : ∃ subscription, r.jobs.lookup job = some (.listen subscription)
    · obtain ⟨subscription, hjob⟩ := hlisten
      rw [hears?_listen hjob] at h
      cases hl : r.listeners[subscription]? with
      | none =>
        rw [hl] at h
        cases h
      | some l =>
        rw [hl] at h
        dsimp only at h
        split at h
        · next hon =>
          obtain ⟨s, hs, heq⟩ := Option.map_eq_some_iff.mp h
          cases heq
          refine ⟨l, s, { s with bus := (s.bus.receive l.receiver).2 }, hl, hs, rfl, ?_, rfl⟩
          show (r.step job).sources[l.source]? = _
          have hmoved : (r.modifySource l.source fun s' =>
              { s' with bus := (s.bus.receive l.receiver).2 }).sources[l.source]? =
              some { s with bus := (s.bus.receive l.receiver).2 } := by
            rw [getElem?_modifySource, hs, Option.map_some, if_pos rfl]
          rw [step_listen hjob]
          unfold hear
          rw [hl]
          dsimp only
          rw [hon.1]
          dsimp only
          rw [if_neg hon.2, hs]
          dsimp only
          cases hreceived : s.bus.receive l.receiver with
          | mk receipt bus =>
            rw [hreceived] at hclosed hempty hmoved
            cases receipt with
            | closed => exact absurd rfl hclosed
            | empty => exact absurd rfl hempty
            | lagged => exact hmoved
            | event n =>
              dsimp only
              rw [sources_dispatch]
              exact hmoved
        · cases h
    · rw [hears?_of_lookup fun subscription hjob => hlisten ⟨subscription, hjob⟩] at h
      cases h
  | _ => cases h

omit [Engine ε] in
/-- The listener has come past the notification with this number. -/
def Past (r : Relay ε) (i k : Nat) : Prop :=
  ∃ l, r.listeners[i]? = some l ∧ ∀ s p, r.sources[l.source]? = some s →
    s.bus.position? l.receiver = some p → k < p

/-- What becomes of the bus of its source in a listener's own step. -/
theorem step_bus {job : Nat} {s s' : Source} (hjob : r.jobs.lookup job = some (.listen i))
    (hl : r.listeners[i]? = some l) (hs : r.sources[l.source]? = some s)
    (hs' : (r.step job).sources[l.source]? = some s') :
    s'.bus = s.bus ∨ s'.bus = s.bus.unsubscribe l.receiver ∨
      s'.bus = (s.bus.receive l.receiver).2 := by
  have hsame : (r.step job).sources = r.sources → s'.bus = s.bus := fun h => by
    rw [h, hs] at hs'
    cases hs'
    rfl
  have hmodify : ∀ f, (r.step job).sources = (r.modifySource l.source f).sources →
      s'.bus = (f s).bus := fun f h => by
    rw [h, getElem?_modifySource, hs, Option.map_some, if_pos rfl] at hs'
    cases hs'
    rfl
  have hstep := step_cases r job
  generalize r.step job = r' at hstep hsame hmodify
  cases hstep with
  | idle | abandons => exact Or.inl (hsame rfl)
  | @goes _ _ t => cases t <;> exact Or.inl (hsame rfl)
  | hears hjob' _ hhears =>
    cases hjob.symm.trans hjob'
    cases hhears with
    | ends | stops | waits => exact Or.inl (hsame rfl)
    | leaves hl' =>
      cases hl.symm.trans hl'
      exact Or.inr (Or.inl (hmodify _ rfl))
    | takes hl' _ hs'' =>
      cases hl.symm.trans hl'
      cases hs.symm.trans hs''
      exact Or.inr (Or.inr (hmodify _ rfl))
    | calls _ hl' _ hs'' =>
      cases hl.symm.trans hl'
      cases hs.symm.trans hs''
      exact Or.inr (Or.inr (hmodify _ rfl))

/-- Whoever has come past a notification does not come back. -/
theorem Past.perform {k : Nat} (hr : r.Attached) (h : r.Past i k) (a : Act ε) :
    (r.perform a).Past i k := by
  obtain ⟨l, hl, hpast⟩ := h
  obtain ⟨l', hl', hlater, -⟩ := perform_listeners hl a
  refine ⟨l', hl', fun s' p' hs' hp' => ?_⟩
  rw [hlater.source] at hs'
  rw [hlater.receiver] at hp'
  obtain ⟨s, hs, hlt⟩ := hr.given i l hl
  by_cases hown : ∃ job, a = .step job ∧ r.jobs.lookup job = some (.listen i)
  · obtain ⟨job, rfl, hjob⟩ := hown
    rcases step_bus hjob hl hs hs' with hbus | hbus | hbus <;> rw [hbus] at hp'
    · exact hpast s p' hs hp'
    · rw [EventBus.position?_unsubscribe, if_pos rfl] at hp'
      cases hp'
    · obtain ⟨history, hcarries⟩ := hr.carried l.source s hs
      obtain ⟨p, hp, hle⟩ := hcarries.receive_onward hp'
      exact Nat.lt_of_lt_of_le (hpast s p hs hp) hle
  · obtain ⟨s'', hs'', hfollows⟩ := (perform_sources r a).old l.source s hs
    cases hs'.symm.trans hs''
    have hposition := hfollows.position l.receiver hlt
      (not_moves hr hl fun job ha hjob => hown ⟨job, ha, hjob⟩)
    exact hpast s p' hs (hposition.symm.trans hp')

/-- Whoever stands behind a notification after what he got has come past it. -/
theorem past_of_heard {m : Moment ε} {w : WalletId} {receipt : Receipt Notification} {s : Source}
    {k p : Nat} (h : m.heard? = some (i, w, receipt)) (hclosed : receipt ≠ .closed)
    (hempty : receipt ≠ .empty) (hl : m.before.listeners[i]? = some l)
    (hs : m.before.sources[l.source]? = some s) (hlt : k < p)
    (hp : receipt = (s.bus.receive l.receiver).1 →
      (s.bus.receive l.receiver).2.position? l.receiver = some p) : m.after.Past i k := by
  obtain ⟨l₁, s₁, s', hl₁, hs₁, hreceipt, hs', hbus⟩ := heard_moves h hclosed hempty
  cases hl.symm.trans hl₁
  cases hs.symm.trans hs₁
  obtain ⟨l', hl', hlater, -⟩ := perform_listeners hl m.act
  refine ⟨l', hl', fun s'' p' hs'' hp' => ?_⟩
  rw [hlater.source] at hs''
  cases hs'.symm.trans hs''
  rw [hlater.receiver, hbus] at hp'
  cases (hp hreceipt).symm.trans hp'
  exact hlt

theorem Moment.Delivers.past {m : Moment ε} {w : WalletId} {k : Nat} {n : Notification}
    (hr : m.before.Attached) (h : m.Delivers i w k n) : m.after.Past i k := by
  obtain ⟨l, s, hl, hs, hp, hheard⟩ := h
  obtain ⟨history, hcarries⟩ := hr.carried l.source s hs
  exact past_of_heard hheard nofun nofun hl hs (Nat.lt_succ_self k) fun h =>
    hcarries.position?_of_event hp h.symm

theorem Moment.Overruns.past {m : Moment ε} {w : WalletId} {k : Nat}
    (hr : m.before.Attached) (h : m.Overruns i w k) : m.after.Past i k := by
  obtain ⟨l, s, p, missed, hl, hs, hp, -, hlt, hheard⟩ := h
  obtain ⟨history, hcarries⟩ := hr.carried l.source s hs
  exact past_of_heard hheard nofun nofun hl hs hlt fun h =>
    hcarries.position?_of_lagged hp h.symm

omit [Engine ε] in
/-- What a listener has come past it neither gets nor misses. -/
theorem Past.not_passes {m : Moment ε} {k : Nat} (h : m.before.Past i k) (w : WalletId) :
    (∀ n, ¬m.Delivers i w k n) ∧ ¬m.Overruns i w k := by
  obtain ⟨l, hl, hpast⟩ := h
  constructor
  · rintro n ⟨l', s, hl', hs, hp, -⟩
    cases hl.symm.trans hl'
    exact Nat.lt_irrefl k (hpast s k hs hp)
  · rintro ⟨l', s, p, missed, hl', hs, hp, hle, -⟩
    cases hl.symm.trans hl'
    have hlt := hpast s p hs hp
    omega

theorem Past.moments {k : Nat} (hr : r.Attached) (h : r.Past i k) (acts : List (Act ε))
    (w : WalletId) : ∀ m ∈ r.moments acts, (∀ n, ¬m.Delivers i w k n) ∧ ¬m.Overruns i w k := by
  induction acts generalizing r with
  | nil => exact fun _ hm => nomatch hm
  | cons a acts ih =>
    intro m hm
    rcases List.mem_cons.mp hm with rfl | hm
    · exact Past.not_passes h w
    · exact ih (hr.perform a) (h.perform hr a) m hm

/-- What is delivered is not overrun. -/
theorem not_overruns {w : WalletId} {k : Nat} {n : Notification} (hr : r.Attached)
    (acts : List (Act ε)) (hdelivers : ∃ m ∈ r.moments acts, m.Delivers i w k n) :
    ¬∃ m ∈ r.moments acts, m.Overruns i w k := by
  induction acts generalizing r with
  | nil =>
    obtain ⟨m, hm, -⟩ := hdelivers
    cases hm
  | cons a acts ih =>
    rintro ⟨m', hm', hoverruns⟩
    obtain ⟨m, hm, hdelivers⟩ := hdelivers
    -- after the first of the two moments there is no second one
    rcases List.mem_cons.mp hm with rfl | hm
    · rcases List.mem_cons.mp hm' with rfl | hm'
      · obtain ⟨_, _, -, -, -, hheard⟩ := hdelivers
        obtain ⟨_, _, _, _, -, -, -, -, -, hheard'⟩ := hoverruns
        cases hheard.symm.trans hheard'
      · exact ((hdelivers.past hr).moments (hr.perform a) acts w m' hm').2 hoverruns
    · rcases List.mem_cons.mp hm' with rfl | hm'
      · exact ((hoverruns.past hr).moments (hr.perform a) acts w m hm).1 n hdelivers
      · exact ih (hr.perform a) ⟨m, hm, hdelivers⟩ ⟨m', hm', hoverruns⟩

/-! ## What a page and all pages are told -/

theorem nextJob_le_of_moments {acts : List (Act ε)} {m : Moment ε} (hm : m ∈ r.moments acts) :
    r.nextJob ≤ m.before.nextJob := by
  induction acts generalizing r with
  | nil => cases hm
  | cons a acts ih =>
    rcases List.mem_cons.mp hm with rfl | hm
    · exact Nat.le_refl _
    · exact Nat.le_trans (nextJob_le_perform r a) (ih hm)

/-- A history goes on after each of its moments. -/
theorem moments_eq_append {acts : List (Act ε)} {pre post : List (Moment ε)} {m : Moment ε}
    (h : r.moments acts = pre ++ m :: post) :
    ∃ acts', post = m.after.moments acts' ∧ r.after acts = m.after.after acts' := by
  induction acts generalizing r pre with
  | nil => cases pre <;> cases h
  | cons a acts ih =>
    cases pre with
    | nil =>
      cases h
      exact ⟨acts, rfl, rfl⟩
    | cons m' pre =>
      have h := (List.cons.inj h).2
      exact ih h

/-- What is told at the end of a refresh that was started since, is told since. -/
theorem Recorded.since {ms : List (Moment ε)} (h : Recorded ms r) (ms' : List (Moment ε)) {n : Nat}
    (hn : r.nextJob ≤ n) :
    turnsOf (ms ++ ms') n = turnsOf ms' n ∧ batchesOf (ms ++ ms') n = batchesOf ms' n := by
  obtain ⟨hturns, hbatches⟩ := h.fresh n hn
  unfold turnsOf at hturns ⊢
  unfold batchesOf batches at hbatches ⊢
  constructor
  · rw [List.filterMap_append, hturns, List.nil_append]
  · rw [List.filterMap_append, List.filter_append, hbatches, List.nil_append]

/-- What comes of it that a listener of the wallet was announced the end of mixing under
this number. -/
structure CompletionTold (r : Relay ε) (acts : List (Act ε)) (i : Nat) (w : WalletId) (k : Nat) :
    Prop where
  /-- The listener gets the notification exactly if it is not told that it is gone. -/
  heard : (∃ m ∈ r.moments acts, m.Delivers i w k (.mixerEnded w)) ↔
    ¬∃ m ∈ r.moments acts, m.Overruns i w k
  /-- If it gets it, the page is told after that, or would be told now. -/
  told : ∀ pre m post, r.moments acts = pre ++ m :: post → m.Delivers i w k (.mixerEnded w) →
    Told post (r.after acts) i
  /-- And a refresh is started that tells all pages the state of the mixer at its end. -/
  announced : ∀ m ∈ r.moments acts, m.Delivers i w k (.mixerEnded w) →
    m.started = [(m.before.nextJob, .refresh i .answer
      (refreshEvents m.before.nextJob w .mixer))] ∧
    ((∃ wait resume, (r.after acts).jobs.lookup m.before.nextJob = some (.refresh i wait resume)) ∧
        batchesOf (r.moments acts) m.before.nextJob = [] ∨
      (r.after acts).jobs.lookup m.before.nextJob = none ∧
        ∃ events, batchesOf (r.moments acts) m.before.nextJob = [⟨m.before.nextJob, i, events⟩] ∧
          Announces m.before.nextJob w .mixer (turnsOf (r.moments acts) m.before.nextJob) events)
  /-- If it is told that it is gone, a refresh is started that does not ask for the mixer. -/
  resynced : ∀ m ∈ r.moments acts, m.Overruns i w k →
    m.started = [(m.before.nextJob, .refresh i .answer
      (refreshEvents m.before.nextJob w .resync))]
  /-- The page is told nothing but what its listener got. -/
  nothingElse : Told (r.moments acts) (r.after acts) i ↔
    r.completed i ∨ ∃ m ∈ r.moments acts, m.Completes i

/-- The end of mixing that is announced while a listener of the wallet goes on is told
exactly if it is not gone before the listener comes to it. -/
theorem completion_told (registry : Registry ε) (acts acts' : List (Act ε)) (i : Nat)
    (l : Listener) (ns : List Notification) (j : Nat) :
    let r := (new registry).after acts
    let r' := r.perform (.announce l.source ns)
    r.listeners[i]? = some l → l.listening = .going → ns[j]? = some (.mixerEnded l.wallet) →
    ¬(r'.after acts').isCancelled i → (r'.after acts').Drained i →
    ∃ s, r.sources[l.source]? = some s ∧ CompletionTold r' acts' i l.wallet (s.bus.sent + j) := by
  intro r r' hl hgoing hn hcancelled hdrained
  have hr : r.Attached := (attached_new registry).after acts
  have hrecorded := (((recorded_new registry).after acts).perform (.announce l.source ns))
  have hend := hrecorded.after acts'
  obtain ⟨s, p, hs, -⟩ := hr.placed i l hl hgoing
  obtain ⟨l', hl', hlater, -⟩ := perform_listeners hl (.announce l.source ns)
  have hahead : r'.Ahead i l.wallet (s.bus.sent + j) (.mixerEnded l.wallet) :=
    ahead_of_announce_at hr hl hgoing hs hn
  refine ⟨s, hs, ?_, ?_, ?_, ?_, told_iff hl' acts'⟩
  · refine ⟨not_overruns (hr.perform _) acts', fun hnot => ?_⟩
    rcases hahead.passed (hr.perform _) acts' hcancelled with hahead | ⟨m, hm, hdelivers | hoverruns⟩
    · exact absurd hdrained hahead.not_drained
    · exact ⟨m, hm, hdelivers⟩
    · exact absurd ⟨m, hm, hoverruns⟩ hnot
  · intro pre m post heq hdelivers
    obtain ⟨acts₁, rfl, hafter⟩ := moments_eq_append heq
    obtain ⟨l₁, -, hl₁, -, -, hheard⟩ := hdelivers
    obtain ⟨l₂, hl₂, hmark⟩ := Moment.Completes.marks ⟨_, hheard⟩ hl₁
    rw [hafter]
    exact (told_iff hl₂ acts₁).mpr (Or.inl hmark)
  · intro m hm hdelivers
    have hcall := hdelivers.call? (reason?_mixerEnded l.wallet)
    refine ⟨?_, ?_⟩
    · rw [((hrecorded.numbered).moments acts' m hm).started, hcall]
      rfl
    · obtain ⟨hturns, hbatches⟩ := hrecorded.since (r'.moments acts') (nextJob_le_of_moments hm)
      have hlasting := hend.turns_lasting m.before.nextJob
      rw [← hturns, ← hbatches]
      cases hend.comes m (List.mem_append_right _ hm) i l.wallet .mixer hcall hcancelled with
      | underWay hjob _ hnone => exact Or.inl ⟨⟨_, _, hjob⟩, hnone⟩
      | ended hjob hcourse hone => exact Or.inr ⟨hjob, _, hone, announces hcourse hlasting⟩
  · intro m hm hoverruns
    rw [((hrecorded.numbered).moments acts' m hm).started, hoverruns.call?]
    rfl

namespace Sample

/-- The listener takes all there is for it, and the refresh that it starts comes to its
end. -/
def hearing : List (Act InMemoryEngine) :=
  List.replicate 3 (.step 0) ++ List.replicate 20 (.step 1)

theorem drained_of_unread {r : Relay InMemoryEngine} {l : Listener} (hl : r.listeners = [l])
    (hs : r.sources.map (·.bus.unread l.receiver) = [0]) : r.Drained 0 := by
  intro l' s hl' _ hs'
  rw [hl] at hl'
  cases hl'
  have hunread : s.bus.unread l.receiver ∈ r.sources.map (·.bus.unread l.receiver) :=
    List.mem_map_of_mem (List.mem_of_getElem? hs')
  rw [hs] at hunread
  exact List.mem_singleton.mp hunread

end Sample

open Sample in
/-- The listener comes to the notification in time. Its page is told, and so are all
pages. -/
theorem completion_told_in_time :
    let r' := ((new Sample.registry).after joining).perform (.announce 0 [.mixerEnded 7])
    (∃ m ∈ r'.moments hearing, m.Delivers 0 7 0 (.mixerEnded 7)) ∧
      Told (r'.moments hearing) (r'.after hearing) 0 ∧
      batches (r'.moments hearing) =
        [⟨1, 0, [.accountsRefreshed 7, .mixerStateChanged 7 false]⟩] := by
  intro r'
  have hl : (r'.after hearing).listeners = [{ listener with mixerCompleted := true }] := by
    decide +kernel
  have hcancelled : ¬(r'.after hearing).isCancelled 0 := by
    unfold isCancelled
    rw [hl]
    exact Bool.false_ne_true
  have hdrained : (r'.after hearing).Drained 0 := drained_of_unread hl (by decide +kernel)
  obtain ⟨s, hs, h⟩ := completion_told Sample.registry joining hearing 0 listener [.mixerEnded 7] 0
    (by decide +kernel) rfl rfl hcancelled hdrained
  have hsent : (((new Sample.registry).after joining).sources[0]?.map (·.bus.sent)) = some 0 := by
    decide +kernel
  have hzero : s.bus.sent + 0 = 0 := by
    rw [show ((new Sample.registry).after joining).sources[0]? = some s from hs] at hsent
    exact Option.some.inj hsent
  rw [hzero] at h
  have hcalls : (r'.moments hearing).filterMap (·.call?) = [(0, 7, .mixer)] := by decide +kernel
  have hheard : ∃ m ∈ r'.moments hearing, m.Delivers 0 7 0 (.mixerEnded 7) := by
    refine h.heard.mpr ?_
    rintro ⟨m, hm, hoverruns⟩
    have hmem : (0, 7, RefreshReason.resync) ∈ (r'.moments hearing).filterMap (·.call?) :=
      List.mem_filterMap.mpr ⟨m, hm, hoverruns.call?⟩
    rw [hcalls] at hmem
    cases List.mem_singleton.mp hmem
  refine ⟨hheard, ?_, by decide +kernel⟩
  obtain ⟨m, hm, _, _, -, -, -, hword⟩ := hheard
  exact h.nothingElse.mpr (Or.inr ⟨m, hm, 7, hword⟩)

open Sample in
/-- The notification is gone before the listener comes to it. Nothing is left for the
listener, and neither its page nor any other is told that mixing has ended. -/
theorem completion_lost :
    let r := (new Sample.registry).after joining
    let r' := r.perform (.announce 0 [.mixerEnded 7, .blockAttached 7 6])
    r.listeners = [listener] ∧ ¬(r'.after hearing).isCancelled 0 ∧ (r'.after hearing).Drained 0 ∧
      ¬Told (r'.moments hearing) (r'.after hearing) 0 ∧
      batches (r'.moments hearing) =
        [⟨1, 0, [.accountsRefreshed 7, .transactionsChanged 7]⟩] := by
  intro r r'
  have hl : (r'.after hearing).listeners = [listener] := by decide +kernel
  have hcalls : (r'.moments hearing).filterMap (·.call?) = [(0, 7, .resync)] := by decide +kernel
  refine ⟨by decide +kernel, ?_, drained_of_unread hl (by decide +kernel), ?_, by decide +kernel⟩
  · unfold isCancelled
    rw [hl]
    exact Bool.false_ne_true
  · have hl' : r'.listeners[0]? = some listener := by decide +kernel
    have hbefore : r'.completed 0 = false := by decide +kernel
    rw [told_iff hl', hbefore]
    rintro (hmark | ⟨m, hm, hword⟩)
    · cases hmark
    · obtain ⟨w, hcall⟩ := hword.call?
      have hmem : (0, w, RefreshReason.mixer) ∈ (r'.moments hearing).filterMap (·.call?) :=
        List.mem_filterMap.mpr ⟨m, hm, hcall⟩
      rw [hcalls] at hmem
      cases List.mem_singleton.mp hmem

end Purse.Relay
