import Purse.Engine.InMemory
import Purse.Proofs.Relay.History

/-!
# No notification is lost on a listener

Every listener that goes on has a receiver of its own, which only its own steps move
(`Attached`). So a notification that is announced lies ahead of it (`Ahead`) until a step
of its own comes past it, and in that step it gets either the notification
(`Moment.Delivers`) or word that it is gone (`Moment.Overruns`); both call for a refresh,
the former if it is about a transaction. A listener that leaves its source because nothing
more will come has come past everything.

Main statement: `transaction_not_lost`.
-/

namespace Purse.Relay

variable {ε : Type} {r : Relay ε} {i : Nat} {l : Listener}

/-! ## What becomes of sources -/

/-- A step of a listener moves its receiver. -/
def Moves (r : Relay ε) (a : Act ε) (source receiver : Nat) : Prop :=
  ∃ job i l, a = .step job ∧ r.jobs.lookup job = some (.listen i) ∧ r.listeners[i]? = some l ∧
    l.source = source ∧ l.receiver = receiver

theorem getElem?_modifySource (r : Relay ε) (source : Nat) (f : Source → Source) (k : Nat) :
    (r.modifySource source f).sources[k]? =
      r.sources[k]?.map fun s => if source = k then f s else s := by
  show (r.sources.modify source f)[k]? = _
  rw [List.getElem?_modify]
  by_cases hk : source = k <;> simp [hk]

/-- What becomes of the sources there are, and where others come from. -/
structure Sources (r : Relay ε) (a : Act ε) (r' : Relay ε) : Prop where
  old : ∀ (k : Nat) (s : Source), r.sources[k]? = some s →
    ∃ s', r'.sources[k]? = some s' ∧ s.bus.Follows s'.bus (r.Moves a k)
  new : ∀ (k : Nat) (s' : Source), r'.sources[k]? = some s' →
    (∃ s, r.sources[k]? = some s) ∨ ∃ capacity, s' = Source.new capacity

theorem sources_same {a : Act ε} {r' : Relay ε} (h : r'.sources = r.sources) : Sources r a r' where
  old k s hs := ⟨s, by rw [h, hs], .refl _ _⟩
  new k s' hs' := Or.inl ⟨s', h ▸ hs'⟩

theorem sources_modify {a : Act ε} {r' : Relay ε} {source : Nat} {f : Source → Source}
    (h : r'.sources = (r.modifySource source f).sources)
    (hf : ∀ s, r.sources[source]? = some s → s.bus.Follows (f s).bus (r.Moves a source)) :
    Sources r a r' where
  old k s hs := by
    refine ⟨if source = k then f s else s, ?_, ?_⟩
    · rw [h, getElem?_modifySource, hs]
      rfl
    · by_cases hk : source = k
      · rw [if_pos hk]
        exact hk ▸ hf s (hk.symm ▸ hs)
      · rw [if_neg hk]
        exact .refl _ _
  new k s' hs' := by
    rw [h, getElem?_modifySource] at hs'
    obtain ⟨s, hs, -⟩ := Option.map_eq_some_iff.mp hs'
    exact Or.inl ⟨s, hs⟩

variable [Engine ε]

theorem perform_sources (r : Relay ε) (a : Act ε) : Sources r a (r.perform a) := by
  cases a with
  | step job =>
    have hstep := step_cases r job
    show Sources r _ (r.step job)
    generalize r.step job = r' at hstep
    cases hstep with
    | idle | abandons => exact sources_same rfl
    | @goes _ _ t =>
      cases t with
      | done | pause => exact sources_same rfl
    | @hears i _ hjob _ hhears =>
      have hown : ∀ {l : Listener}, r.listeners[i]? = some l →
          r.Moves (.step job) l.source l.receiver := fun hl => ⟨job, i, _, rfl, hjob, hl, rfl, rfl⟩
      cases hhears with
      | ends | stops | waits => exact sources_same rfl
      | leaves hl => exact sources_modify rfl fun s _ => .unsubscribe s.bus (hown hl)
      | takes hl _ hs =>
        refine sources_modify rfl fun s' hs' => ?_
        cases hs.symm.trans hs'
        exact .receive _ (hown hl)
      | calls _ hl _ hs =>
        refine sources_modify rfl fun s' hs' => ?_
        cases hs.symm.trans hs'
        exact .receive _ (hown hl)
  | register page w source =>
    rcases perform_register r page w source with heq | ⟨s, hs, heq⟩ <;> rw [heq]
    · exact sources_same rfl
    · refine sources_modify rfl fun s' hs' => ?_
      cases hs.symm.trans hs'
      exact .subscribe _ _
  | deregister page =>
    rcases perform_deregister r page with heq | ⟨_, _, heq⟩ <;> rw [heq] <;> exact sources_same rfl
  | addSource capacity =>
    constructor
    · intro k s hs
      exact ⟨s, (List.getElem?_append_left (List.getElem?_eq_some_iff.mp hs).1).trans hs, .refl _ _⟩
    · intro k s' hs'
      rcases getElem?_concat hs' with hs' | ⟨-, rfl⟩
      · exact Or.inl ⟨s', hs'⟩
      · exact Or.inr ⟨capacity, rfl⟩
  | setRefusing source refusing => exact sources_modify rfl fun s _ => .refl _ _
  | announce source notifications => exact sources_modify rfl fun s _ => .emit s.bus _ _
  | closeSource source => exact sources_modify rfl fun s _ => .dropSender s.bus _
  | others registry =>
    rcases perform_others r registry with heq | ⟨-, heq⟩ <;> rw [heq] <;> exact sources_same rfl
  | cancel | release | unsubscribe | takeMixerCompleted | watch | takeTickets =>
    exact sources_same rfl

/-! ## Who has which receiver -/

/-- There are more listeners only where one joins. -/
theorem length_perform (r : Relay ε) (a : Act ε) :
    (r.perform a).listeners.length = r.listeners.length ∨
      ∃ page w source s, a = .register page w source ∧ r.sources[source]? = some s ∧
        r.perform a = r.join page w source s := by
  cases a with
  | step job =>
    refine Or.inl ?_
    have hstep := step_cases r job
    show (r.step job).listeners.length = _
    generalize r.step job = r' at hstep
    cases hstep with
    | idle | abandons => rfl
    | @goes _ _ t => cases t <;> rfl
    | hears _ _ hhears =>
      cases hhears with
      | ends | waits | takes => rfl
      | stops | leaves | calls => exact List.length_modify _ _ _
  | register page w source =>
    rcases perform_register r page w source with heq | ⟨s, hs, heq⟩
    · exact Or.inl (congrArg (·.listeners.length) heq)
    · exact Or.inr ⟨page, w, source, s, rfl, hs, heq⟩
  | deregister page =>
    rcases perform_deregister r page with heq | ⟨_, _, heq⟩ <;> rw [heq]
    · exact Or.inl rfl
    · exact Or.inl (List.length_modify _ _ _)
  | others registry =>
    rcases perform_others r registry with heq | ⟨-, heq⟩ <;> rw [heq] <;> exact Or.inl rfl
  | cancel | unsubscribe | takeMixerCompleted => exact Or.inl (List.length_modify _ _ _)
  | release | addSource | setRefusing | announce | closeSource | watch | takeTickets =>
    exact Or.inl rfl

/-- A listener that is not there yet joins with a job and with the next receiver of its
source. -/
structure Joins (r : Relay ε) (a : Act ε) (i : Nat) (l : Listener) : Prop where
  last : i = r.listeners.length
  going : l.listening = .going
  jobs : (r.perform a).jobs = r.jobs ++ [(r.nextJob, .listen i)]
  source : ∃ s s', r.sources[l.source]? = some s ∧ l.receiver = s.bus.nextReceiver ∧
    (r.perform a).sources[l.source]? = some s' ∧ s'.bus = s.bus.subscribe.2

theorem perform_joins {a : Act ε} (hl : (r.perform a).listeners[i]? = some l) :
    (∃ l₀, r.listeners[i]? = some l₀) ∨ r.Joins a i l := by
  rcases length_perform r a with hlength | ⟨page, w, source, s, rfl, hs, heq⟩
  · obtain ⟨hlt, -⟩ := List.getElem?_eq_some_iff.mp hl
    exact Or.inl ⟨_, List.getElem?_eq_getElem (hlength ▸ hlt)⟩
  · rw [heq] at hl
    rcases getElem?_concat hl with hl | ⟨rfl, rfl⟩
    · exact Or.inl ⟨l, hl⟩
    · refine Or.inr ⟨rfl, rfl, by rw [heq]; rfl, s,
        { s with bus := s.bus.subscribe.2, subscriptions := s.subscriptions + 1 },
        hs, rfl, ?_, rfl⟩
      rw [heq]
      refine (getElem?_modifySource r source _ source).trans ?_
      rw [hs, Option.map_some, if_pos rfl]

omit [Engine ε] in
/-- The receiver of a listener stands somewhere. -/
def Placed (r : Relay ε) (l : Listener) : Prop :=
  ∃ s p, r.sources[l.source]? = some s ∧ s.bus.position? l.receiver = some p ∧ p ≤ s.bus.sent

/-- Every listener has a receiver of its own, and as long as it goes on the receiver
stands somewhere. -/
structure Attached (r : Relay ε) : Prop where
  carried : ∀ (k : Nat) (s : Source), r.sources[k]? = some s → ∃ history, s.bus.Carries history
  fresh : ∀ (k : Nat) (s : Source), r.sources[k]? = some s → ∀ receiver,
    s.bus.nextReceiver ≤ receiver → s.bus.position? receiver = none
  given : ∀ (i : Nat) (l : Listener), r.listeners[i]? = some l →
    ∃ s, r.sources[l.source]? = some s ∧ l.receiver < s.bus.nextReceiver
  own : ∀ (i j : Nat) (l l' : Listener), r.listeners[i]? = some l → r.listeners[j]? = some l' →
    l.source = l'.source → l.receiver = l'.receiver → i = j
  placed : ∀ (i : Nat) (l : Listener), r.listeners[i]? = some l → l.listening = .going → r.Placed l

omit [Engine ε] in
theorem attached_new (registry : Registry ε) : Attached (new registry) where
  carried _ _ h := nomatch h
  fresh _ _ h := nomatch h
  given _ _ h := nomatch h
  own _ _ _ _ h := nomatch h
  placed _ _ h := nomatch h

/-! ## What a listener does itself -/

/-- What a listener that goes on does in a step of its own: it takes a receipt, rests, or
leaves its source. -/
inductive Own (r : Relay ε) (a : Act ε) (i : Nat) (l : Listener) (s : Source) : Prop
  | receives {l' : Listener} {s' : Source} (hl' : (r.perform a).listeners[i]? = some l')
      (hgoing : l'.listening = .going) (hs' : (r.perform a).sources[l.source]? = some s')
      (hbus : s'.bus = (s.bus.receive l.receiver).2)
      (hcall : Moment.call? ⟨r, a⟩ =
        ((s.bus.receive l.receiver).1.reason? l.wallet).map fun reason => (i, l.wallet, reason)) :
      Own r a i l s
  | rests (hlisteners : (r.perform a).listeners = r.listeners)
      (hsources : (r.perform a).sources = r.sources) : Own r a i l s
  | leaves {l' : Listener} (hl' : (r.perform a).listeners[i]? = some l')
      (hleaving : l'.listening = .leaving)
      (hs' : (r.perform a).sources[l.source]? = some { s with bus := s.bus.unsubscribe l.receiver })
      (hwhy : l.cancelled ∨ (s.bus.receive l.receiver).1 = .closed) : Own r a i l s

theorem own_step {job : Nat} {s : Source} (hjob : r.jobs.lookup job = some (.listen i))
    (hl : r.listeners[i]? = some l) (hgoing : l.listening = .going)
    (hs : r.sources[l.source]? = some s) : Own r (.step job) i l s := by
  have hreceives : r.hears? job = some (i, l.wallet, (s.bus.receive l.receiver).1) →
      ∀ r' : Relay ε, r.perform (.step job) = r' →
      (∃ l', r'.listeners[i]? = some l' ∧ l'.listening = .going) →
      r'.sources = (r.modifySource l.source fun s' =>
        { s' with bus := (s.bus.receive l.receiver).2 }).sources → Own r (.step job) i l s := by
    rintro hhears r' hr' ⟨l', hl', hgoing'⟩ hsources
    have hs' : (r.perform (.step job)).sources[l.source]? =
        some { s with bus := (s.bus.receive l.receiver).2 } := by
      rw [hr', hsources, getElem?_modifySource, hs, Option.map_some, if_pos rfl]
    refine .receives (by rw [hr', hl']) hgoing' hs' rfl ?_
    show r.call? job = _
    unfold call?
    rw [hhears]
    rfl
  have hstep := step_cases r job
  generalize hr' : r.step job = r' at hstep
  have hperform : r.perform (.step job) = r' := hr'
  cases hstep with
  | idle | abandons => exact .rests (congrArg (·.listeners) hperform) (congrArg (·.sources) hperform)
  | @goes _ _ t =>
    exact .rests (by rw [hperform]; cases t <;> rfl) (by rw [hperform]; cases t <;> rfl)
  | hears hjob' _ hhears =>
    cases hjob.symm.trans hjob'
    cases hhears with
    | ends | waits => exact .rests (congrArg (·.listeners) hperform) (congrArg (·.sources) hperform)
    | stops hl' hleaving =>
      cases hl.symm.trans hl'
      rw [hgoing] at hleaving
      cases hleaving
    | leaves hl' _ _ hwhy =>
      cases hl.symm.trans hl'
      have hl' : (r.perform (.step job)).listeners[i]? = some { l with listening := .leaving } := by
        rw [hperform]
        exact getElem?_modifyListener_self hl fun l => { l with listening := .leaving }
      refine .leaves hl' rfl ?_ ?_
      · rw [hperform]
        refine (getElem?_modifySource _ _ _ _).trans ?_
        rw [hs, Option.map_some, if_pos rfl]
      · rcases hwhy with hwhy | hwhy | ⟨s', hs', hwhy⟩
        · exact Or.inl hwhy
        · rw [hs] at hwhy
          cases hwhy
        · cases hs.symm.trans hs'
          exact Or.inr hwhy
    | takes hl' _ hs' hhears =>
      cases hl.symm.trans hl'
      cases hs.symm.trans hs'
      exact hreceives hhears _ hperform ⟨l, hl, hgoing⟩ rfl
    | calls ended hl' _ hs' hhears =>
      cases hl.symm.trans hl'
      cases hs.symm.trans hs'
      have hmarked := getElem?_modifyListener_self hl fun l =>
        { l with mixerCompleted := l.mixerCompleted || ended }
      exact hreceives hhears _ hperform ⟨_, hmarked, hgoing⟩ rfl

omit [Engine ε] in
/-- Whoever does not move a receiver leaves it where it stands. -/
theorem not_moves {a : Act ε} (hr : r.Attached) (hl : r.listeners[i]? = some l)
    (h : ∀ job, a = .step job → r.jobs.lookup job ≠ some (.listen i)) :
    ¬r.Moves a l.source l.receiver := by
  rintro ⟨job, j, l', rfl, hjob, hl', hsource, hreceiver⟩
  obtain rfl := hr.own j i l' l hl' hl hsource hreceiver
  exact h job rfl hjob

theorem Attached.placed_perform (hr : r.Attached) {a : Act ε} {l' : Listener}
    (hl : r.listeners[i]? = some l) (hl' : (r.perform a).listeners[i]? = some l')
    (hgoing : l'.listening = .going) : (r.perform a).Placed l' := by
  obtain ⟨l'', hl'', hlater, hlistening⟩ := perform_listeners hl a
  cases hl'.symm.trans hl''
  have hgoing₀ : l.listening = .going := by
    rcases hlistening with hsame | ⟨hnot, -⟩
    · rw [← hsame, hgoing]
    · exact absurd hgoing hnot
  obtain ⟨s, p, hs, hp, hle⟩ := hr.placed i l hl hgoing₀
  obtain ⟨history, hcarries⟩ := hr.carried l.source s hs
  obtain ⟨s', hs', hfollows⟩ := (perform_sources r a).old l.source s hs
  unfold Placed
  rw [hlater.source, hlater.receiver]
  have hsent : s.bus.sent ≤ s'.bus.sent := by
    obtain ⟨more, hmore⟩ := hfollows.carries history hcarries
    rw [hcarries.sent, hmore.sent, List.length_append]
    exact Nat.le_add_right _ _
  by_cases hown : ∃ job, a = .step job ∧ r.jobs.lookup job = some (.listen i)
  · obtain ⟨job, rfl, hjob⟩ := hown
    cases own_step hjob hl hgoing₀ hs with
    | receives _ _ hs'' hbus =>
      cases hs'.symm.trans hs''
      obtain ⟨p', hp', hle'⟩ := hcarries.receive_placed hp hle
      exact ⟨s', p', hs', by rw [hbus]; exact hp', by rw [hbus]; exact hle'⟩
    | rests _ hsources => exact ⟨s, p, by rw [hsources, hs], hp, hle⟩
    | leaves hleft hleaving =>
      cases hl'.symm.trans hleft
      rw [hgoing] at hleaving
      cases hleaving
  · obtain ⟨s₀, hs₀, hlt⟩ := hr.given i l hl
    cases hs.symm.trans hs₀
    have hposition := hfollows.position l.receiver hlt
      (not_moves hr hl fun job ha hjob => hown ⟨job, ha, hjob⟩)
    exact ⟨s', p, hs', hposition.trans hp, Nat.le_trans hle hsent⟩

theorem Attached.given_perform (hr : r.Attached) {a : Act ε} {l' : Listener}
    (hl' : (r.perform a).listeners[i]? = some l') :
    ∃ s, (r.perform a).sources[l'.source]? = some s ∧ l'.receiver < s.bus.nextReceiver := by
  rcases perform_joins hl' with ⟨l, hl⟩ | ⟨-, -, -, s, s', -, hreceiver, hs', hbus⟩
  · obtain ⟨l'', hl'', hlater, -⟩ := perform_listeners hl a
    cases hl'.symm.trans hl''
    obtain ⟨s, hs, hlt⟩ := hr.given i l hl
    obtain ⟨s', hs', hfollows⟩ := (perform_sources r a).old l.source s hs
    rw [hlater.source, hlater.receiver]
    exact ⟨s', hs', Nat.lt_of_lt_of_le hlt hfollows.next⟩
  · refine ⟨s', hs', ?_⟩
    rw [hreceiver, hbus]
    exact Nat.lt_succ_self _

theorem Attached.own_perform (hr : r.Attached) {a : Act ε} {j : Nat} {l' m' : Listener}
    (hl' : (r.perform a).listeners[i]? = some l') (hm' : (r.perform a).listeners[j]? = some m')
    (hsource : l'.source = m'.source) (hreceiver : l'.receiver = m'.receiver) : i = j := by
  -- whoever joins gets a receiver that nobody had
  have hnew : ∀ {i j : Nat} {l m l' : Listener}, r.listeners[i]? = some l → l.Later l' →
      r.Joins a j m → l'.source = m.source → l'.receiver ≠ m.receiver := by
    rintro i j l m l' hl hlater ⟨-, -, -, s, -, hs, hlast, -, -⟩ hsource hreceiver
    obtain ⟨s₀, hs₀, hlt⟩ := hr.given i l hl
    rw [← hlater.source, hsource] at hs₀
    cases hs.symm.trans hs₀
    rw [← hlater.receiver, hreceiver, hlast] at hlt
    exact absurd hlt (Nat.lt_irrefl _)
  rcases perform_joins hl' with ⟨l, hl⟩ | hjoins
  · obtain ⟨l'', hl'', hlater, -⟩ := perform_listeners hl a
    cases hl'.symm.trans hl''
    rcases perform_joins hm' with ⟨m, hm⟩ | hjoins
    · obtain ⟨m'', hm'', hlater', -⟩ := perform_listeners hm a
      cases hm'.symm.trans hm''
      refine hr.own i j l m hl hm ?_ ?_
      · rw [← hlater.source, hsource, hlater'.source]
      · rw [← hlater.receiver, hreceiver, hlater'.receiver]
    · exact absurd hreceiver (hnew hl hlater hjoins hsource)
  · rcases perform_joins hm' with ⟨m, hm⟩ | hjoins'
    · obtain ⟨m'', hm'', hlater', -⟩ := perform_listeners hm a
      cases hm'.symm.trans hm''
      exact absurd hreceiver.symm (hnew hm hlater' hjoins hsource.symm)
    · rw [hjoins.last, hjoins'.last]

theorem Attached.perform (hr : r.Attached) (a : Act ε) : (r.perform a).Attached where
  carried k s' hs' := by
    rcases (perform_sources r a).new k s' hs' with ⟨s, hs⟩ | ⟨capacity, rfl⟩
    · obtain ⟨s'', hs'', hfollows⟩ := (perform_sources r a).old k s hs
      cases hs'.symm.trans hs''
      obtain ⟨history, hcarries⟩ := hr.carried k s hs
      obtain ⟨more, hmore⟩ := hfollows.carries history hcarries
      exact ⟨_, hmore⟩
    · exact ⟨[], EventBus.carries_new capacity⟩
  fresh k s' hs' receiver hle := by
    rcases (perform_sources r a).new k s' hs' with ⟨s, hs⟩ | ⟨capacity, rfl⟩
    · obtain ⟨s'', hs'', hfollows⟩ := (perform_sources r a).old k s hs
      cases hs'.symm.trans hs''
      exact hfollows.fresh receiver hle (hr.fresh k s hs receiver (Nat.le_trans hfollows.next hle))
    · rfl
  given i l' hl' := hr.given_perform hl'
  own i j l' m' hl' hm' hsource hreceiver := hr.own_perform hl' hm' hsource hreceiver
  placed i l' hl' hgoing := by
    rcases perform_joins hl' with ⟨l, hl⟩ | ⟨-, -, -, s, s', hs, hreceiver, hs', hbus⟩
    · exact hr.placed_perform hl hl' hgoing
    · refine ⟨s', s.bus.sent, hs', ?_, ?_⟩
      · rw [hbus, hreceiver, EventBus.position?_subscribe, hr.fresh _ s hs _ (Nat.le_refl _),
          if_pos rfl]
        rfl
      · rw [hbus]
        exact Nat.le_refl _

/-! ## What lies ahead -/

omit [Engine ε] in
/-- The notification with this number lies ahead of a listener of the wallet that goes on. -/
def Ahead (r : Relay ε) (i : Nat) (w : WalletId) (k : Nat) (n : Notification) : Prop :=
  ∃ l s p history, r.listeners[i]? = some l ∧ l.wallet = w ∧ l.listening = .going ∧
    r.sources[l.source]? = some s ∧ s.bus.position? l.receiver = some p ∧ p ≤ k ∧
    s.bus.Carries history ∧ history[k]? = some n

omit [Engine ε] in
/-- What a listener gets from its source in the moment. -/
def Moment.heard? (m : Moment ε) : Option (Nat × WalletId × Receipt Notification) :=
  match m.act with
  | .step job => m.before.hears? job
  | _ => none

omit [Engine ε] in
theorem Moment.call?_eq (m : Moment ε) : m.call? = m.heard?.bind fun (subscription, w, receipt) =>
    (receipt.reason? w).map fun reason => (subscription, w, reason) := by
  obtain ⟨r, a⟩ := m
  cases a <;> rfl

omit [Engine ε] in
/-- The listener of the wallet gets the notification with this number. -/
def Moment.Delivers (m : Moment ε) (i : Nat) (w : WalletId) (k : Nat) (n : Notification) : Prop :=
  ∃ l s, m.before.listeners[i]? = some l ∧ m.before.sources[l.source]? = some s ∧
    s.bus.position? l.receiver = some k ∧ m.heard? = some (i, w, .event n)

omit [Engine ε] in
/-- The listener of the wallet is told that notifications are gone, among them the one with
this number. -/
def Moment.Overruns (m : Moment ε) (i : Nat) (w : WalletId) (k : Nat) : Prop :=
  ∃ l s p missed, m.before.listeners[i]? = some l ∧ m.before.sources[l.source]? = some s ∧
    s.bus.position? l.receiver = some p ∧ p ≤ k ∧ k < p + missed ∧
    m.heard? = some (i, w, .lagged missed)

omit [Engine ε] in
theorem hears?_eq {job : Nat} {s : Source} (hjob : r.jobs.lookup job = some (.listen i))
    (hl : r.listeners[i]? = some l) (hgoing : l.listening = .going) (hcancelled : ¬l.cancelled)
    (hs : r.sources[l.source]? = some s) :
    r.hears? job = some (i, l.wallet, (s.bus.receive l.receiver).1) := by
  rw [hears?_listen hjob, hl]
  dsimp only
  rw [if_pos ⟨hgoing, hcancelled⟩, hs, Option.map_some]

/-- A notification lies ahead until it is delivered or overrun. -/
theorem Ahead.perform {w : WalletId} {k : Nat} {n : Notification} {a : Act ε} (hr : r.Attached)
    (h : r.Ahead i w k n) (hcancelled : ¬(r.perform a).isCancelled i) :
    (r.perform a).Ahead i w k n ∨
      Moment.Delivers ⟨r, a⟩ i w k n ∨ Moment.Overruns ⟨r, a⟩ i w k := by
  obtain ⟨l, s, p, history, hl, rfl, hgoing, hs, hp, hle, hcarries, hn⟩ := h
  obtain ⟨l', hl', hlater, hlistening⟩ := perform_listeners hl a
  obtain ⟨s', hs', hfollows⟩ := (perform_sources r a).old l.source s hs
  obtain ⟨more, hmore⟩ := hfollows.carries history hcarries
  have hn' : (history ++ more)[k]? = some n := by
    rw [List.getElem?_append_left (List.getElem?_eq_some_iff.mp hn).1, hn]
  -- as long as it goes on, all depends on where its receiver stands
  have hahead : l'.listening = .going → ∀ p', s'.bus.position? l.receiver = some p' → p' ≤ k →
      (r.perform a).Ahead i l.wallet k n := fun hgoing' p' hp' hle' =>
    ⟨l', s', p', _, hl', hlater.wallet, hgoing', hlater.source ▸ hs', hlater.receiver ▸ hp', hle',
      hmore, hn'⟩
  have hbefore : ¬l.cancelled := by
    have hbefore := isCancelled_of_perform hl hcancelled
    unfold isCancelled at hbefore
    rwa [hl] at hbefore
  by_cases hown : ∃ job, a = .step job ∧ r.jobs.lookup job = some (.listen i)
  · obtain ⟨job, rfl, hjob⟩ := hown
    have hheard : Moment.heard? ⟨r, .step job⟩ = some (i, l.wallet, (s.bus.receive l.receiver).1) :=
      hears?_eq hjob hl hgoing hbefore hs
    cases own_step hjob hl hgoing hs with
    | receives hl'' hgoing' hs'' hbus =>
      cases hl'.symm.trans hl''
      cases hs'.symm.trans hs''
      rcases hcarries.receive_ahead hp hle hn with ⟨missed, hgone, hlt⟩ | ⟨hevent, rfl⟩ |
        ⟨p', hp', hle'⟩
      · rw [hgone] at hheard
        exact Or.inr (Or.inr ⟨l, s, p, missed, hl, hs, hp, hle, hlt, hheard⟩)
      · rw [hevent] at hheard
        exact Or.inr (Or.inl ⟨l, s, hl, hs, hp, hheard⟩)
      · exact Or.inl (hahead hgoing' p' (by rw [hbus]; exact hp') hle')
    | rests hlisteners hsources =>
      exact Or.inl ⟨l, s, p, history, by rw [hlisteners, hl], rfl, hgoing, by rw [hsources, hs], hp,
        hle, hcarries, hn⟩
    | leaves _ _ _ hwhy =>
      rcases hwhy with hwhy | hclosed
      · exact absurd hwhy hbefore
      · -- whoever is at the end of a closed source has nothing ahead
        have hlt : k < s.bus.sent := hcarries.sent ▸ (List.getElem?_eq_some_iff.mp hn).1
        exact absurd hclosed (hcarries.receive_ne_closed hp (Nat.lt_of_le_of_lt hle hlt))
  · have hgoing' : l'.listening = .going := by
      rcases hlistening with hsame | ⟨-, hstep⟩
      · rw [hsame, hgoing]
      · exact absurd hstep hown
    obtain ⟨s₀, hs₀, hlt⟩ := hr.given i l hl
    cases hs.symm.trans hs₀
    have hposition := hfollows.position l.receiver hlt
      (not_moves hr hl fun job ha hjob => hown ⟨job, ha, hjob⟩)
    exact Or.inl (hahead hgoing' p (hposition.trans hp) hle)

/-- What lies ahead in the end has not been come past, and else it was delivered or
overrun. -/
theorem Ahead.passed {w : WalletId} {k : Nat} {n : Notification} (hr : r.Attached)
    (h : r.Ahead i w k n) (acts : List (Act ε)) (hcancelled : ¬(r.after acts).isCancelled i) :
    (r.after acts).Ahead i w k n ∨
      ∃ m ∈ r.moments acts, m.Delivers i w k n ∨ m.Overruns i w k := by
  induction acts generalizing r with
  | nil => exact Or.inl h
  | cons a acts ih =>
    obtain ⟨l, -, -, -, hl, -⟩ := id h
    obtain ⟨l', hl', -⟩ := perform_listeners hl a
    have hbefore := isCancelled_of_after hl' hcancelled
    rcases h.perform hr hbefore with hahead | hpassed
    · rcases ih (hr.perform a) hahead hcancelled with hahead | ⟨m, hm, hpassed⟩
      · exact Or.inl hahead
      · exact Or.inr ⟨m, List.mem_cons_of_mem _ hm, hpassed⟩
    · exact Or.inr ⟨_, List.mem_cons_self, hpassed⟩

omit [Engine ε] in
theorem Moment.call?_of_heard? {m : Moment ε} {w : WalletId} {receipt : Receipt Notification}
    {reason : RefreshReason} (h : m.heard? = some (i, w, receipt))
    (hreason : receipt.reason? w = some reason) : m.call? = some (i, w, reason) := by
  rw [m.call?_eq, h, Option.bind_some]
  dsimp only
  rw [hreason, Option.map_some]

omit [Engine ε] in
/-- What is gone calls for a refresh. -/
theorem Moment.Overruns.call? {m : Moment ε} {w : WalletId} {k : Nat} (h : m.Overruns i w k) :
    m.call? = some (i, w, .resync) := by
  obtain ⟨l, s, p, missed, -, -, -, -, -, hheard⟩ := h
  exact call?_of_heard? hheard rfl

omit [Engine ε] in
/-- A notification calls for what it is the reason for. -/
theorem Moment.Delivers.call? {m : Moment ε} {w : WalletId} {k : Nat} {n : Notification}
    {reason : RefreshReason} (h : m.Delivers i w k n)
    (hreason : (Receipt.event n).reason? w = some reason) : m.call? = some (i, w, reason) := by
  obtain ⟨l, s, -, -, -, hheard⟩ := h
  exact call?_of_heard? hheard hreason

/-- A transaction that lies ahead in the end has not been come past, and else there was a
call. -/
theorem Ahead.after {w : WalletId} {k : Nat} {txid : String} (hr : r.Attached)
    (h : r.Ahead i w k (.newTransaction w txid)) (acts : List (Act ε))
    (hcancelled : ¬(r.after acts).isCancelled i) :
    (r.after acts).Ahead i w k (.newTransaction w txid) ∨
      ∃ m ∈ r.moments acts, ∃ reason, (reason = .transaction ∨ reason = .resync) ∧
        m.call? = some (i, w, reason) := by
  rcases h.passed hr acts hcancelled with hahead | ⟨m, hm, hdelivers | hoverruns⟩
  · exact Or.inl hahead
  · exact Or.inr ⟨m, hm, .transaction, Or.inl rfl, hdelivers.call? (if_neg (fun h => h rfl))⟩
  · exact Or.inr ⟨m, hm, .resync, Or.inr rfl, hoverruns.call?⟩

omit [Engine ε] in
/-- Nothing is left for a listener at its source. -/
def Drained (r : Relay ε) (i : Nat) : Prop :=
  ∀ l s, r.listeners[i]? = some l → l.listening = .going → r.sources[l.source]? = some s →
    s.bus.unread l.receiver = 0

omit [Engine ε] in
theorem Ahead.not_drained {w : WalletId} {k : Nat} {n : Notification} (h : r.Ahead i w k n) :
    ¬r.Drained i := by
  obtain ⟨l, s, p, history, hl, -, hgoing, hs, hp, hle, hcarries, hn⟩ := h
  intro hdrained
  have hunread := hdrained l s hl hgoing hs
  have hlt : k < s.bus.sent := hcarries.sent ▸ (List.getElem?_eq_some_iff.mp hn).1
  unfold EventBus.position? at hp
  unfold EventBus.unread at hunread
  rw [hp] at hunread
  have hunread : s.bus.sent - p = 0 := hunread
  omega

/-- A notification lies ahead of every listener that goes on when it is announced, behind
all that were sent before. -/
theorem ahead_of_announce_at (hr : r.Attached) {n : Notification} {ns : List Notification}
    {s : Source} {j : Nat} (hl : r.listeners[i]? = some l) (hgoing : l.listening = .going)
    (hs : r.sources[l.source]? = some s) (hj : ns[j]? = some n) :
    (r.perform (.announce l.source ns)).Ahead i l.wallet (s.bus.sent + j) n := by
  obtain ⟨s₀, p, hs₀, hp, hle⟩ := hr.placed i l hl hgoing
  cases hs.symm.trans hs₀
  obtain ⟨history, hcarries⟩ := hr.carried l.source s hs
  have hs' : (r.perform (.announce l.source ns)).sources[l.source]? =
      some { s with bus := s.bus.emit ns } := by
    refine (getElem?_modifySource r _ _ _).trans ?_
    rw [hs, Option.map_some, if_pos rfl]
  refine ⟨l, _, p, history ++ ns, hl, rfl, hgoing, hs', ?_, ?_, hcarries.emit ns, ?_⟩
  · obtain ⟨buffer, sent, hframe⟩ := EventBus.emit_frame s.bus ns
    show (s.bus.emit ns).position? l.receiver = some p
    rw [hframe]
    exact hp
  · omega
  · rw [hcarries.sent, List.getElem?_append_right (Nat.le_add_right _ _), Nat.add_sub_cancel_left, hj]

theorem ahead_of_announce (hr : r.Attached) {n : Notification} {ns : List Notification}
    (hl : r.listeners[i]? = some l) (hgoing : l.listening = .going) (hn : n ∈ ns) :
    ∃ k, (r.perform (.announce l.source ns)).Ahead i l.wallet k n := by
  obtain ⟨s, -, hs, -⟩ := hr.placed i l hl hgoing
  obtain ⟨j, hj⟩ := List.getElem?_of_mem hn
  exact ⟨_, ahead_of_announce_at hr hl hgoing hs hj⟩

/-- What every act keeps, histories keep. -/
theorem Attached.after (hr : r.Attached) (acts : List (Act ε)) : (r.after acts).Attached := by
  induction acts generalizing r with
  | nil => exact hr
  | cons a acts ih => exact ih (hr.perform a)

/-- A transaction that is announced while a listener of its wallet goes on is not lost on
it, however much else is announced: as soon as nothing is left for the listener at its
source, it has started a refresh since, unless it was cancelled. -/
theorem transaction_not_lost (registry : Registry ε) (acts acts' : List (Act ε)) (i : Nat)
    (l : Listener) (txid : String) (ns : List Notification) :
    let r := (new registry).after acts
    let r' := r.perform (.announce l.source ns)
    r.listeners[i]? = some l → l.listening = .going → .newTransaction l.wallet txid ∈ ns →
    ¬(r'.after acts').isCancelled i → (r'.after acts').Drained i →
    ∃ m ∈ r'.moments acts', ∃ reason, (reason = .transaction ∨ reason = .resync) ∧
      (m.before.nextJob, Job.refresh i .answer (refreshEvents m.before.nextJob l.wallet reason)) ∈
        m.started := by
  intro r r' hl hgoing hn hcancelled hdrained
  have hr : r.Attached := (attached_new registry).after acts
  have hnumbered : r'.Numbered := ((numbered_new registry).after acts).perform _
  obtain ⟨k, hahead⟩ := ahead_of_announce hr hl hgoing hn
  rcases hahead.after (hr.perform _) acts' hcancelled with hahead | ⟨m, hm, reason, hreason, hcall⟩
  · exact absurd hdrained hahead.not_drained
  · refine ⟨m, hm, reason, hreason, ?_⟩
    rw [(hnumbered.moments acts' m hm).started, hcall]
    exact List.mem_singleton_self _

namespace Sample

def empty : Registry InMemoryEngine where
  config := {}

/-- A page listens to a source that keeps one notification. -/
def joining : List (Act InMemoryEngine) :=
  [.addSource 1, .register "page" 7 0]

def listener : Listener where
  page := "page"
  wallet := 7
  source := 0
  receiver := 0

def burst : List Notification :=
  [.newTransaction 7 "aa", .blockAttached 7 6, .blockAttached 7 7]

/-- The source is closed; the listener takes what is left and ends. -/
def leaving : List (Act InMemoryEngine) :=
  .closeSource 0 :: List.replicate 5 (.step 0)

end Sample

open Sample in
/-- The transaction is gone before the listener comes to it, and the listener refreshes
because it is told that something is gone. -/
theorem transaction_not_lost_overrun :
    let ms := (((new empty).after joining).perform (.announce 0 burst)).moments leaving
    ms.filterMap (·.call?) = [(0, 7, .resync)] ∧
      ∃ m ∈ ms, ∃ reason, (reason = .transaction ∨ reason = .resync) ∧
        (m.before.nextJob, Job.refresh 0 .answer (refreshEvents m.before.nextJob 7 reason)) ∈
          m.started := by
  have hended : ((((new empty).after joining).perform (.announce 0 burst)).after leaving).listeners =
      [{ listener with listening := .ended }] := by decide +kernel
  refine ⟨by decide +kernel,
    transaction_not_lost empty joining leaving 0 listener "aa" burst ?_ rfl ?_ ?_ ?_⟩
  · decide +kernel
  · exact List.mem_cons_self
  · show ¬isCancelled ((((new empty).after joining).perform (.announce 0 burst)).after leaving) 0
    unfold isCancelled
    rw [hended]
    exact Bool.false_ne_true
  · intro l s hl hgoing _
    have hl : ((((new empty).after joining).perform (.announce 0 burst)).after leaving).listeners[0]? =
      some l := hl
    rw [hended] at hl
    cases hl
    cases hgoing

end Purse.Relay
