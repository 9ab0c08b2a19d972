import Purse.Proofs.EventBus
import Purse.Proofs.Registry.Course
import Purse.Relay

/-!
# Histories of a relay

Everything that happens to a relay is an `Act`: a step of one of its jobs, what pages and
sources do, and what others do to the registry meanwhile. A history is a list of acts,
and `moments` are its acts, each with the relay as it was before.

What can be told of a moment is which listener got what (`hears?`), for which refresh
that calls (`call?`), which refreshes were started (`started`), which refresh had a turn
(`turn?`) and what it told the pages at its end (`batch?`). `step_cases` says what a step
can do, `Hearing` what a listener can do in it.
-/

namespace Purse

/-! ## What calls for a refresh -/

/-- Why a listener of a wallet has to refresh when it gets this. -/
def Receipt.reason? (w : WalletId) : Receipt Notification → Option RefreshReason
  | event n =>
    if n.wallet ≠ w then none
    else match n with
      | .newTransaction _ _ => some .transaction
      | .blockAttached _ _ => none
      | .mixerStarted _ | .mixerEnded _ => some .mixer
  | lagged _ => some .resync
  | closed | empty => none

def Job.isRefresh {ε : Type} : Job ε → Bool
  | listen _ => false
  | refresh _ _ _ => true

/-- A listener and what has become of it. Whoever is cancelled stays so. -/
structure Listener.Later (l l' : Listener) : Prop where
  page : l'.page = l.page
  wallet : l'.wallet = l.wallet
  source : l'.source = l.source
  receiver : l'.receiver = l.receiver
  cancelled : l.cancelled → l'.cancelled

theorem Listener.Later.refl (l : Listener) : l.Later l := ⟨rfl, rfl, rfl, rfl, id⟩

theorem Listener.Later.trans {l l' l'' : Listener} (h : l.Later l') (h' : l'.Later l'') :
    l.Later l'' where
  page := h'.page.trans h.page
  wallet := h'.wallet.trans h.wallet
  source := h'.source.trans h.source
  receiver := h'.receiver.trans h.receiver
  cancelled hl := h'.cancelled (h.cancelled hl)

/-- What the pages are told at the end of a refresh. -/
structure Batch where
  job : Nat
  subscription : Nat
  events : List ViewEvent
  deriving DecidableEq, Repr

namespace Relay

variable {ε : Type}

/-! ## Acts -/

/-- What may happen next. -/
inductive Act (ε : Type) where
  | step (job : Nat)
  | register (page : String) (wallet : WalletId) (source : Nat)
  | deregister (page : String)
  | cancel (subscription : Nat)
  | release (subscription : Nat)
  | unsubscribe (subscription : Nat)
  | takeMixerCompleted (subscription : Nat)
  | addSource (capacity : Nat)
  | setRefusing (source : Nat) (refusing : Bool)
  | announce (source : Nat) (notifications : List Notification)
  | closeSource (source : Nat)
  /-- Those who watch the views come, go and read. -/
  | watch (receivers : List (Nat × Nat)) (nextReceiver : Nat)
  /-- Somebody else takes tickets for refreshes of his own. -/
  | takeTickets (count : Nat)
  /-- Others change the registry, its engines included. Registrations stay what they are. -/
  | others (registry : Registry ε)

variable [Engine ε]

def perform (r : Relay ε) : Act ε → Relay ε
  | .step job => r.step job
  | .register page wallet source => (r.register page wallet source).2
  | .deregister page => (r.deregister page).2
  | .cancel subscription => r.cancel subscription
  | .release subscription => r.release subscription
  | .unsubscribe subscription => r.unsubscribe subscription
  | .takeMixerCompleted subscription => (r.takeMixerCompleted subscription).2
  | .addSource capacity => (r.addSource (.new capacity)).2
  | .setRefusing source refusing => r.modifySource source fun s => { s with refusing }
  | .announce source notifications => r.announce source notifications
  | .closeSource source => r.closeSource source
  | .watch receivers nextReceiver => { r with views := { r.views with receivers, nextReceiver } }
  | .takeTickets count => { r with nextJob := r.nextJob + count }
  | .others registry =>
    if r.registry.registrations.map (·.access) <+: registry.registrations.map (·.access) then
      { r with registry }
    else r

omit [Engine ε] in
/-- A page has joined, with a listener and its job. -/
def join (r : Relay ε) (page : String) (w : WalletId) (source : Nat) (s : Source) : Relay ε :=
  { r.modifySource source fun s' =>
      { s' with bus := s.bus.subscribe.2, subscriptions := s'.subscriptions + 1 } with
    pages := (page, r.listeners.length) :: r.pages
    listeners := r.listeners ++ [{ page, wallet := w, source, receiver := s.bus.nextReceiver }]
    jobs := r.jobs ++ [(r.nextJob, .listen r.listeners.length)]
    nextJob := r.nextJob + 1 }

theorem perform_register (r : Relay ε) (page : String) (w : WalletId) (source : Nat) :
    r.perform (.register page w source) = r ∨
      ∃ s, r.sources[source]? = some s ∧
        r.perform (.register page w source) = r.join page w source s := by
  unfold perform register
  dsimp only
  split
  · next s _ hs =>
    split
    · exact Or.inl rfl
    · exact Or.inr ⟨s, hs, rfl⟩
  · exact Or.inl rfl

theorem perform_deregister (r : Relay ε) (page : String) :
    r.perform (.deregister page) = r ∨
      ∃ subscription pages, r.perform (.deregister page) = { r.cancel subscription with pages } := by
  unfold perform deregister
  dsimp only
  split
  · exact Or.inl rfl
  · exact Or.inr ⟨_, _, rfl⟩

theorem perform_others (r : Relay ε) (registry : Registry ε) :
    r.perform (.others registry) = r ∨
      r.registry.registrations.map (·.access) <+: registry.registrations.map (·.access) ∧
        r.perform (.others registry) = { r with registry } := by
  unfold perform
  dsimp only
  split
  · next hlasts => exact Or.inr ⟨hlasts, rfl⟩
  · exact Or.inl rfl

/-- Only steps and others change the registry. -/
theorem perform_registry (r : Relay ε) {a : Act ε} (hstep : ∀ job, a ≠ .step job)
    (hothers : ∀ registry, a ≠ .others registry) : (r.perform a).registry = r.registry := by
  cases a with
  | step job => exact absurd rfl (hstep job)
  | others registry => exact absurd rfl (hothers registry)
  | register page w source =>
    rcases perform_register r page w source with heq | ⟨s, -, heq⟩ <;> rw [heq]
    rfl
  | deregister page =>
    rcases perform_deregister r page with heq | ⟨_, _, heq⟩ <;> rw [heq]
    rfl
  | cancel | release | unsubscribe | takeMixerCompleted | addSource | setRefusing | announce
    | closeSource | watch | takeTickets => rfl

def after (r : Relay ε) (acts : List (Act ε)) : Relay ε :=
  acts.foldl perform r

theorem after_append (r : Relay ε) (acts acts' : List (Act ε)) :
    r.after (acts ++ acts') = (r.after acts).after acts' :=
  List.foldl_append

/-- An act and the relay before it. -/
structure Moment (ε : Type) where
  before : Relay ε
  act : Act ε

def Moment.after (m : Moment ε) : Relay ε :=
  m.before.perform m.act

/-- The moments of a history. -/
def moments (r : Relay ε) : List (Act ε) → List (Moment ε)
  | [] => []
  | a :: acts => ⟨r, a⟩ :: (r.perform a).moments acts

/-! ## What can be told of a moment -/

omit [Engine ε] in
/-- What a step of a listener gets from its source, if it goes there at all: the
subscription, its wallet and the receipt. -/
def hears? (r : Relay ε) (job : Nat) : Option (Nat × WalletId × Receipt Notification) :=
  match r.jobs.lookup job with
  | some (.listen subscription) =>
    match r.listeners[subscription]? with
    | some l =>
      if l.listening = .going ∧ ¬l.cancelled then
        r.sources[l.source]?.map fun s => (subscription, l.wallet, (s.bus.receive l.receiver).1)
      else none
    | none => none
  | _ => none

omit [Engine ε] in
/-- The refresh for which the receipt of a listener calls. -/
def call? (r : Relay ε) (job : Nat) : Option (Nat × WalletId × RefreshReason) :=
  (r.hears? job).bind fun (subscription, w, receipt) =>
    (receipt.reason? w).map fun reason => (subscription, w, reason)

/-- The turn of a refresh that need not wait: its subscription, what it has waited for and
what is left of it. -/
def turn? (r : Relay ε) (job : Nat) :
    Option (Nat × Wait × Turns Wait (Registry ε) (List ViewEvent)) :=
  match r.jobs.lookup job with
  | some (.refresh subscription wait resume) =>
    if r.isCancelled subscription then none
    else if r.registry.isOver wait then some (subscription, wait, resume r.registry)
    else none
  | _ => none

namespace Moment

/-- The refresh for which the moment calls. -/
def call? (m : Moment ε) : Option (Nat × WalletId × RefreshReason) :=
  match m.act with
  | .step job => m.before.call? job
  | _ => none

/-- The refreshes that are started. -/
def started (m : Moment ε) : List (Nat × Job ε) :=
  m.after.jobs.filter fun j => m.before.nextJob ≤ j.1 && j.2.isRefresh

/-- The turn that a refresh has. -/
def turn? (m : Moment ε) (job : Nat) : Option (Turn Wait (Registry ε)) :=
  match m.act with
  | .step n =>
    if n = job then (m.before.turn? n).map fun t => ⟨t.2.1, m.before.registry, m.after.registry⟩
    else none
  | _ => none

/-- What the pages are told. -/
def batch? (m : Moment ε) : Option Batch :=
  match m.act with
  | .step job =>
    match m.before.turn? job with
    | some (subscription, _, .done events _) => some ⟨job, subscription, events⟩
    | _ => none
  | _ => none

end Moment

/-- The turns of a refresh. -/
def turnsOf (ms : List (Moment ε)) (job : Nat) : List (Turn Wait (Registry ε)) :=
  ms.filterMap (·.turn? job)

/-- Everything that the pages were told. -/
def batches (ms : List (Moment ε)) : List Batch :=
  ms.filterMap (·.batch?)

/-! ## What a step does -/

omit [Engine ε] in
theorem getElem?_modifyListener (r : Relay ε) (subscription : Nat) (f : Listener → Listener)
    (i : Nat) : (r.modifyListener subscription f).listeners[i]? =
      r.listeners[i]?.map fun l => if subscription = i then f l else l := by
  show (r.listeners.modify subscription f)[i]? = _
  rw [List.getElem?_modify]
  by_cases hi : subscription = i <;> simp [hi]

omit [Engine ε] in
theorem getElem?_modifyListener_self {r : Relay ε} {i : Nat} {l : Listener}
    (hl : r.listeners[i]? = some l) (f : Listener → Listener) :
    (r.modifyListener i f).listeners[i]? = some (f l) := by
  rw [getElem?_modifyListener, hl, Option.map_some, if_pos rfl]

omit [Engine ε] in
theorem modifyListener_eq_self (r : Relay ε) (subscription : Nat) {f : Listener → Listener}
    (h : ∀ l, f l = l) : r.modifyListener subscription f = r := by
  obtain rfl : f = id := funext h
  unfold modifyListener
  rw [List.modify_id]

/-- What a listener does in a step. -/
inductive Hearing (r : Relay ε) (job subscription : Nat) : Relay ε → Prop
  | ends (hnone : r.hears? job = none) : Hearing r job subscription (r.finish job)
  | stops {l : Listener} (hl : r.listeners[subscription]? = some l)
      (hleaving : l.listening = .leaving)
      (hnone : r.hears? job = none) : Hearing r job subscription (r.stop job subscription)
  | leaves {l : Listener} (hl : r.listeners[subscription]? = some l) (hgoing : l.listening = .going)
      (hnone : r.call? job = none)
      (hwhy : l.cancelled ∨ r.sources[l.source]? = none ∨
        ∃ s, r.sources[l.source]? = some s ∧ (s.bus.receive l.receiver).1 = .closed) :
      Hearing r job subscription (r.detach subscription l)
  | takes {l : Listener} {s : Source} (hl : r.listeners[subscription]? = some l)
      (hgoing : l.listening = .going) (hs : r.sources[l.source]? = some s)
      (hhears : r.hears? job = some (subscription, l.wallet, (s.bus.receive l.receiver).1))
      (hcall : r.call? job = none) :
      Hearing r job subscription
        (r.modifySource l.source fun s' => { s' with bus := (s.bus.receive l.receiver).2 })
  | calls {l : Listener} {s : Source} {reason : RefreshReason} (ended : Bool)
      (hl : r.listeners[subscription]? = some l) (hgoing : l.listening = .going)
      (hs : r.sources[l.source]? = some s)
      (hhears : r.hears? job = some (subscription, l.wallet, (s.bus.receive l.receiver).1))
      (hcall : r.call? job = some (subscription, l.wallet, reason)) :
      Hearing r job subscription
        (((r.modifySource l.source fun s' =>
          { s' with bus := (s.bus.receive l.receiver).2 }).modifyListener subscription fun l =>
          { l with mixerCompleted := l.mixerCompleted || ended }).startRefresh
            subscription l.wallet reason)
  | waits (hcall : r.call? job = none) : Hearing r job subscription r

/-- What a listener does with what it got. -/
theorem hear_receipt {r : Relay ε} {job subscription : Nat} {l : Listener} {s : Source}
    (hl : r.listeners[subscription]? = some l) (hgoing : l.listening = .going)
    (hs : r.sources[l.source]? = some s)
    (hhears : r.hears? job = some (subscription, l.wallet, (s.bus.receive l.receiver).1))
    (hcall : r.call? job = ((s.bus.receive l.receiver).1.reason? l.wallet).map fun reason =>
      (subscription, l.wallet, reason)) :
    Hearing r job subscription
      (match s.bus.receive l.receiver with
        | (.event n, bus) =>
          (r.modifySource l.source fun s => { s with bus }).dispatch subscription l.wallet n
        | (.lagged _, bus) =>
          (r.modifySource l.source fun s => { s with bus }).startRefresh subscription l.wallet
            .resync
        | (.closed, _) => r.detach subscription l
        | (.empty, _) => r) := by
  -- a refresh that leaves the listener alone
  have hcalls : ∀ reason, (s.bus.receive l.receiver).1.reason? l.wallet = some reason →
      Hearing r job subscription
        ((r.modifySource l.source fun s' =>
          { s' with bus := (s.bus.receive l.receiver).2 }).startRefresh
            subscription l.wallet reason) := fun reason hreason => by
    rw [hreason] at hcall
    have h := Hearing.calls false hl hgoing hs hhears hcall
    rwa [modifyListener_eq_self _ _ fun l => by rw [Bool.or_false]] at h
  have htakes : (s.bus.receive l.receiver).1.reason? l.wallet = none → Hearing r job subscription
      (r.modifySource l.source fun s' => { s' with bus := (s.bus.receive l.receiver).2 }) :=
    fun hreason => .takes hl hgoing hs hhears (by rw [hcall, hreason]; rfl)
  cases hreceived : s.bus.receive l.receiver with
  | mk receipt bus =>
    rw [hreceived] at hcalls htakes hcall hhears
    cases receipt with
    | empty => exact .waits hcall
    | closed => exact .leaves hl hgoing hcall (Or.inr (Or.inr ⟨s, hs, by rw [hreceived]⟩))
    | lagged missed => exact hcalls .resync rfl
    | event n =>
      dsimp only
      unfold dispatch
      by_cases hw : n.wallet ≠ l.wallet
      · rw [if_pos hw]
        exact htakes (if_pos hw)
      · rw [if_neg hw]
        cases n with
        | newTransaction w txid => exact hcalls .transaction (if_neg hw)
        | blockAttached w height => exact htakes (if_neg hw)
        | mixerStarted w => exact hcalls .mixer (if_neg hw)
        | mixerEnded w =>
          have hreason : (Receipt.event (Notification.mixerEnded w)).reason? l.wallet = some .mixer :=
            if_neg hw
          rw [hreason] at hcall
          have h := Hearing.calls true hl hgoing hs (by rw [hreceived]; exact hhears) hcall
          rw [hreceived] at h
          have htrue : (fun l : Listener => { l with mixerCompleted := l.mixerCompleted || true }) =
              fun l => { l with mixerCompleted := true } := by
            funext l
            rw [Bool.or_true]
          rwa [htrue] at h

omit [Engine ε] in
theorem hears?_listen {r : Relay ε} {job subscription : Nat}
    (hjob : r.jobs.lookup job = some (.listen subscription)) :
    r.hears? job = match r.listeners[subscription]? with
      | some l =>
        if l.listening = .going ∧ ¬l.cancelled then
          r.sources[l.source]?.map fun s => (subscription, l.wallet, (s.bus.receive l.receiver).1)
        else none
      | none => none := by
  unfold hears?
  rw [hjob]

theorem hear_cases {r : Relay ε} {job subscription : Nat}
    (hjob : r.jobs.lookup job = some (.listen subscription)) :
    Hearing r job subscription (r.hear job subscription) := by
  unfold hear
  have hhears := hears?_listen hjob
  cases hl : r.listeners[subscription]? with
  | none =>
    rw [hl] at hhears
    exact .ends hhears
  | some l =>
    rw [hl] at hhears
    dsimp only at hhears ⊢
    cases hlistening : l.listening with
    | ended =>
      rw [hlistening] at hhears
      exact .ends hhears
    | leaving =>
      rw [hlistening] at hhears
      exact .stops hl hlistening hhears
    | going =>
      dsimp only
      by_cases hcancelled : l.cancelled
      · rw [if_neg (fun h => h.2 hcancelled)] at hhears
        rw [if_pos hcancelled]
        refine .leaves hl hlistening ?_ (Or.inl hcancelled)
        unfold call?
        rw [hhears]
        rfl
      · rw [if_pos ⟨hlistening, hcancelled⟩] at hhears
        rw [if_neg hcancelled]
        cases hs : r.sources[l.source]? with
        | none =>
          rw [hs] at hhears
          refine .leaves hl hlistening ?_ (Or.inr (Or.inl hs))
          unfold call?
          rw [hhears]
          rfl
        | some s =>
          rw [hs] at hhears
          have hcall : r.call? job = ((s.bus.receive l.receiver).1.reason? l.wallet).map fun reason =>
              (subscription, l.wallet, reason) := by
            unfold call?
            rw [hhears]
            rfl
          exact hear_receipt hl hlistening hs hhears hcall

/-- What a job does in a step. -/
inductive Stepping (r : Relay ε) (job : Nat) : Relay ε → Prop
  | idle (hcall : r.call? job = none) (hturn : r.turn? job = none) : Stepping r job r
  | hears {subscription : Nat} {r' : Relay ε}
      (hjob : r.jobs.lookup job = some (.listen subscription)) (hturn : r.turn? job = none)
      (h : Hearing r job subscription r') : Stepping r job r'
  | abandons (hcall : r.call? job = none) (hturn : r.turn? job = none) {subscription : Nat}
      {wait : Wait} {resume : Registry ε → Turns Wait (Registry ε) (List ViewEvent)}
      (hjob : r.jobs.lookup job = some (.refresh subscription wait resume))
      (hcancelled : r.isCancelled subscription) : Stepping r job (r.abandon job)
  | goes {subscription : Nat} {wait : Wait} {t : Turns Wait (Registry ε) (List ViewEvent)}
      (hcall : r.call? job = none) (hturn : r.turn? job = some (subscription, wait, t)) :
      Stepping r job (r.advance job subscription t)

omit [Engine ε] in
/-- Only listeners call for refreshes. -/
theorem call?_of_lookup {r : Relay ε} {job : Nat}
    (h : ∀ subscription, r.jobs.lookup job ≠ some (.listen subscription)) : r.call? job = none := by
  unfold call? hears?
  split
  · next heq => exact absurd heq (h _)
  · rfl

theorem step_cases (r : Relay ε) (job : Nat) : Stepping r job (r.step job) := by
  unfold step
  cases hjob : r.jobs.lookup job with
  | none =>
    refine .idle (call?_of_lookup fun _ h => ?_) ?_
    · rw [hjob] at h
      cases h
    · unfold turn?
      rw [hjob]
  | some j =>
    cases j with
    | listen subscription =>
      refine .hears hjob ?_ (hear_cases hjob)
      unfold turn?
      rw [hjob]
    | refresh subscription wait resume =>
      have hcall : r.call? job = none := call?_of_lookup fun _ h => by
        rw [hjob] at h
        cases h
      have hturn : r.turn? job = if r.isCancelled subscription then none
          else if r.registry.isOver wait then some (subscription, wait, resume r.registry)
          else none := by
        unfold turn?
        rw [hjob]
      dsimp only
      by_cases hcancelled : r.isCancelled subscription
      · rw [if_pos hcancelled] at hturn ⊢
        exact .abandons hcall hturn hjob hcancelled
      · rw [if_neg hcancelled] at hturn ⊢
        by_cases hover : r.registry.isOver wait
        · rw [if_pos hover] at hturn ⊢
          exact .goes hcall hturn
        · rw [if_neg hover] at hturn ⊢
          exact .idle hcall hturn

/-- A refresh that need not wait has a turn. -/
theorem step_refresh {r : Relay ε} {job subscription : Nat} {wait : Wait}
    {resume : Registry ε → Turns Wait (Registry ε) (List ViewEvent)}
    (hjob : r.jobs.lookup job = some (.refresh subscription wait resume))
    (hcancelled : ¬r.isCancelled subscription) (hover : r.registry.isOver wait) :
    r.step job = r.advance job subscription (resume r.registry) := by
  unfold step
  rw [hjob]
  dsimp only
  rw [if_neg hcancelled, if_pos hover]

/-- A refresh whose subscription is cancelled ends. -/
theorem step_cancelled {r : Relay ε} {job subscription : Nat} {wait : Wait}
    {resume : Registry ε → Turns Wait (Registry ε) (List ViewEvent)}
    (hjob : r.jobs.lookup job = some (.refresh subscription wait resume))
    (hcancelled : r.isCancelled subscription) : r.step job = r.abandon job := by
  unfold step
  rw [hjob]
  exact if_pos hcancelled

theorem lookup_of_turn? {r : Relay ε} {job subscription : Nat} {wait : Wait}
    {t : Turns Wait (Registry ε) (List ViewEvent)}
    (h : r.turn? job = some (subscription, wait, t)) :
    ∃ resume, r.jobs.lookup job = some (.refresh subscription wait resume) ∧
      ¬r.isCancelled subscription ∧ t = resume r.registry := by
  unfold turn? at h
  split at h
  · next subscription' wait' resume hjob =>
    split at h
    · cases h
    · next hcancelled =>
      split at h
      · cases h
        exact ⟨resume, hjob, hcancelled, rfl⟩
      · cases h
  · cases h

theorem isOver_of_turn? {r : Relay ε} {job subscription : Nat} {wait : Wait}
    {t : Turns Wait (Registry ε) (List ViewEvent)}
    (h : r.turn? job = some (subscription, wait, t)) : r.registry.isOver wait := by
  unfold turn? at h
  split at h
  · split at h
    · cases h
    · split at h
      · next hover =>
        cases h
        exact hover
      · cases h
  · cases h

/-! ## What becomes of jobs -/

omit [Engine ε] in
theorem lookup_finish (r : Relay ε) (job : Nat) : (r.finish job).jobs.lookup job = none :=
  (Keyed.lookup_erase job job r.jobs).trans (if_pos rfl)

omit [Engine ε] in
theorem lookup_advance_pause {r : Relay ε} {job : Nat} {j : Job ε}
    (hjob : r.jobs.lookup job = some j) (subscription : Nat) (wait : Wait) (s : Registry ε)
    (resume : Registry ε → Turns Wait (Registry ε) (List ViewEvent)) :
    (r.advance job subscription (.pause wait s resume)).jobs.lookup job =
      some (.refresh subscription wait resume) := by
  refine (Keyed.lookup_replace _ _ _ _).trans ?_
  rw [if_pos rfl, hjob, Option.map_some]

/-- What becomes of the jobs in an act. -/
inductive Jobs (r : Relay ε) : Act ε → Relay ε → Prop
  | same {a : Act ε} {r' : Relay ε} (hcall : Moment.call? ⟨r, a⟩ = none) (hjobs : r'.jobs = r.jobs)
      (hnext : r.nextJob ≤ r'.nextJob) : Jobs r a r'
  | listens {page : String} {w : WalletId} {source subscription : Nat} {r' : Relay ε}
      (hjobs : r'.jobs = r.jobs ++ [(r.nextJob, .listen subscription)])
      (hnext : r'.nextJob = r.nextJob + 1) : Jobs r (.register page w source) r'
  | calls {job subscription : Nat} {w : WalletId} {reason : RefreshReason} {r' : Relay ε}
      (hcall : r.call? job = some (subscription, w, reason))
      (hjobs : r'.jobs = r.jobs ++ [(r.nextJob, .refresh subscription .answer
        (refreshEvents r.nextJob w reason))])
      (hnext : r'.nextJob = r.nextJob + 1) : Jobs r (.step job) r'
  | ends {job : Nat} {r' : Relay ε} (hcall : r.call? job = none)
      (hjobs : r'.jobs = r.jobs.filter (·.1 ≠ job)) (hnext : r'.nextJob = r.nextJob) :
      Jobs r (.step job) r'
  | goesOn {job subscription : Nat} {wait : Wait} {r' : Relay ε}
      {resume : Registry ε → Turns Wait (Registry ε) (List ViewEvent)} (hcall : r.call? job = none)
      (hjob : ∃ wait resume, r.jobs.lookup job = some (.refresh subscription wait resume))
      (hjobs : r'.jobs = r.jobs.map fun j =>
        if j.1 = job then (job, .refresh subscription wait resume) else j)
      (hnext : r'.nextJob = r.nextJob) : Jobs r (.step job) r'

theorem perform_jobs (r : Relay ε) (a : Act ε) : Jobs r a (r.perform a) := by
  cases a with
  | step job =>
    have hstep := step_cases r job
    show Jobs r _ (r.step job)
    generalize r.step job = r' at hstep
    cases hstep with
    | idle hcall => exact .same hcall rfl (Nat.le_refl _)
    | hears hjob hturn h =>
      cases h with
      | ends hnone => exact .ends (by unfold call?; rw [hnone]; rfl) rfl rfl
      | stops _ _ hnone => exact .ends (by unfold call?; rw [hnone]; rfl) rfl rfl
      | leaves _ _ hnone => exact .same hnone rfl (Nat.le_refl _)
      | takes _ _ _ _ hcall => exact .same hcall rfl (Nat.le_refl _)
      | calls _ _ _ _ _ hcall => exact .calls hcall rfl rfl
      | waits hcall => exact .same hcall rfl (Nat.le_refl _)
    | abandons hcall => exact .ends hcall rfl rfl
    | @goes _ _ t hcall hturn =>
      cases t with
      | done events s => exact .ends hcall rfl rfl
      | pause wait s resume =>
        obtain ⟨resume', hjob, -⟩ := lookup_of_turn? hturn
        exact .goesOn hcall ⟨_, _, hjob⟩ rfl rfl
  | register page w source =>
    rcases perform_register r page w source with heq | ⟨s, -, heq⟩ <;> rw [heq]
    · exact .same rfl rfl (Nat.le_refl _)
    · exact .listens rfl rfl
  | deregister page =>
    rcases perform_deregister r page with heq | ⟨_, _, heq⟩ <;> rw [heq] <;>
      exact .same rfl rfl (Nat.le_refl _)
  | takeTickets count => exact .same rfl rfl (Nat.le_add_right _ _)
  | others registry =>
    rcases perform_others r registry with heq | ⟨-, heq⟩ <;> rw [heq] <;>
      exact .same rfl rfl (Nat.le_refl _)
  | cancel | release | unsubscribe | takeMixerCompleted | addSource | setRefusing | announce
    | closeSource | watch => exact .same rfl rfl (Nat.le_refl _)

omit [Engine ε] in
/-- The numbers of jobs have been given out. -/
def Numbered (r : Relay ε) : Prop :=
  ∀ j ∈ r.jobs, j.1 < r.nextJob

omit [Engine ε] in
theorem Numbered.lookup {r : Relay ε} (h : r.Numbered) {n : Nat} (hn : r.nextJob ≤ n) :
    r.jobs.lookup n = none := by
  rw [List.lookup_eq_none_iff]
  intro j hj
  have hlt := h j hj
  rw [bne_iff_ne]
  omega

omit [Engine ε] in
theorem Numbered.lt_of_lookup {r : Relay ε} (h : r.Numbered) {n : Nat} {j : Job ε}
    (hn : r.jobs.lookup n = some j) : n < r.nextJob := by
  refine Nat.lt_of_not_le fun hle => ?_
  rw [h.lookup hle] at hn
  cases hn

theorem Numbered.perform {r : Relay ε} (h : r.Numbered) (a : Act ε) : (r.perform a).Numbered := by
  have hjobs := perform_jobs r a
  generalize r.perform a = r' at hjobs
  intro j hj
  cases hjobs with
  | same _ hjobs hnext =>
    rw [hjobs] at hj
    exact Nat.lt_of_lt_of_le (h j hj) hnext
  | listens hjobs hnext | calls _ hjobs hnext =>
    rw [hjobs] at hj
    rw [hnext]
    rcases List.mem_append.mp hj with hj | hj
    · exact Nat.lt_succ_of_lt (h j hj)
    · obtain rfl := List.mem_singleton.mp hj
      exact Nat.lt_succ_self _
  | ends _ hjobs hnext =>
    rw [hjobs] at hj
    rw [hnext]
    exact h j (List.mem_filter.mp hj).1
  | goesOn _ _ hjobs hnext =>
    rw [hjobs] at hj
    rw [hnext]
    obtain ⟨j', hj', rfl⟩ := List.mem_map.mp hj
    split
    · next heq => exact heq ▸ h j' hj'
    · exact h j' hj'

omit [Engine ε] in
theorem numbered_new (registry : Registry ε) : (new registry).Numbered :=
  fun _ h => nomatch h

theorem Numbered.after {r : Relay ε} (h : r.Numbered) (acts : List (Act ε)) :
    (r.after acts).Numbered := by
  induction acts generalizing r with
  | nil => exact h
  | cons a acts ih => exact ih (h.perform a)

theorem Numbered.moments {r : Relay ε} (h : r.Numbered) (acts : List (Act ε)) :
    ∀ m ∈ r.moments acts, m.before.Numbered := by
  induction acts generalizing r with
  | nil => exact fun _ hm => nomatch hm
  | cons a acts ih =>
    intro m hm
    rcases List.mem_cons.mp hm with rfl | hm
    · exact h
    · exact ih (h.perform a) m hm

/-- Other jobs stay as they are. -/
theorem lookup_perform {r : Relay ε} {a : Act ε} {n : Nat} (hn : n < r.nextJob) (ha : a ≠ .step n) :
    (r.perform a).jobs.lookup n = r.jobs.lookup n := by
  have hjobs := perform_jobs r a
  generalize r.perform a = r' at hjobs
  have hnew : ∀ j : Job ε, (r.jobs ++ [(r.nextJob, j)]).lookup n = r.jobs.lookup n := fun j => by
    rw [List.lookup_append, List.lookup_cons, beq_eq_false_iff_ne.mpr (Nat.ne_of_lt hn),
      List.lookup_nil, Option.or_none]
  cases hjobs with
  | same _ hjobs => rw [hjobs]
  | listens hjobs | calls _ hjobs => rw [hjobs, hnew]
  | ends _ hjobs =>
    rw [hjobs]
    refine (Keyed.lookup_erase _ _ _).trans (if_neg ?_)
    rintro rfl
    exact ha rfl
  | goesOn _ _ hjobs =>
    rw [hjobs]
    refine (Keyed.lookup_replace _ _ _ _).trans (if_neg ?_)
    rintro rfl
    exact ha rfl

/-- A refresh is started where one is called for, and nowhere else. -/
theorem Numbered.started {m : Moment ε} (h : m.before.Numbered) :
    m.started = m.call?.toList.map fun call => (m.before.nextJob,
      .refresh call.1 .answer (refreshEvents m.before.nextJob call.2.1 call.2.2)) := by
  obtain ⟨r, a⟩ := m
  have hjobs := perform_jobs r a
  unfold Moment.started Moment.after
  dsimp only at h ⊢
  generalize r.perform a = r' at hjobs
  have hold : r.jobs.filter (fun j => r.nextJob ≤ j.1 && j.2.isRefresh) = [] := by
    rw [List.filter_eq_nil_iff]
    intro j hj
    have hlt := h j hj
    simp [Nat.not_le_of_lt hlt]
  cases hjobs with
  | same hcall hjobs => rw [hcall, hjobs, hold]; rfl
  | listens hjobs =>
    rw [hjobs, List.filter_append, hold]
    simp [Job.isRefresh, Moment.call?]
  | @calls job _ _ _ _ hcall hjobs =>
    have hcall : Moment.call? (⟨r, .step job⟩ : Moment ε) = _ := hcall
    rw [hjobs, List.filter_append, hold, hcall]
    simp [Job.isRefresh]
  | @ends job _ hcall hjobs =>
    have hcall : Moment.call? (⟨r, .step job⟩ : Moment ε) = _ := hcall
    rw [hjobs, hcall, List.filter_eq_nil_iff.mpr]
    · rfl
    · intro j hj
      have hlt := h j (List.mem_filter.mp hj).1
      simp [Nat.not_le_of_lt hlt]
  | @goesOn job _ _ _ _ hcall _ hjobs =>
    have hcall : Moment.call? (⟨r, .step job⟩ : Moment ε) = _ := hcall
    rw [hjobs, hcall, List.filter_eq_nil_iff.mpr]
    · rfl
    · intro j hj
      obtain ⟨j', hj', rfl⟩ := List.mem_map.mp hj
      have hlt := h j' hj'
      split
      · next heq => simp [← heq, Nat.not_le_of_lt hlt]
      · simp [Nat.not_le_of_lt hlt]

/-! ## What becomes of listeners -/

/-- What becomes of a listener in an act. Only in its own step it may cease to go on. -/
def Becomes (r : Relay ε) (a : Act ε) (i : Nat) (l l' : Listener) : Prop :=
  l.Later l' ∧ (l'.listening = l.listening ∨
    l'.listening ≠ .going ∧ ∃ job, a = .step job ∧ r.jobs.lookup job = some (.listen i))

omit [Engine ε] in
theorem exists_modifyListener {r : Relay ε} {a : Act ε} {i subscription : Nat} {l : Listener}
    {f : Listener → Listener} (hl : r.listeners[i]? = some l) (hlater : l.Later (f l))
    (hlistening : subscription = i → (f l).listening = l.listening ∨ (f l).listening ≠ .going ∧
      ∃ job, a = .step job ∧ r.jobs.lookup job = some (.listen i)) :
    ∃ l', (r.modifyListener subscription f).listeners[i]? = some l' ∧ r.Becomes a i l l' := by
  refine ⟨if subscription = i then f l else l, ?_, ?_⟩
  · rw [getElem?_modifyListener, hl]
    rfl
  · by_cases hi : subscription = i
    · rw [if_pos hi]
      exact ⟨hlater, hlistening hi⟩
    · rw [if_neg hi]
      exact ⟨.refl l, Or.inl rfl⟩

theorem perform_listeners {r : Relay ε} {i : Nat} {l : Listener} (hl : r.listeners[i]? = some l)
    (a : Act ε) : ∃ l', (r.perform a).listeners[i]? = some l' ∧ r.Becomes a i l l' := by
  have hsame : ∀ r' : Relay ε, r'.listeners = r.listeners →
      ∃ l', r'.listeners[i]? = some l' ∧ r.Becomes a i l l' := fun r' h =>
    ⟨l, by rw [h, hl], .refl l, Or.inl rfl⟩
  have hcancel : ∀ subscription, ∃ l', (r.cancel subscription).listeners[i]? = some l' ∧
      r.Becomes a i l l' := fun subscription =>
    exists_modifyListener hl ⟨rfl, rfl, rfl, rfl, fun _ => rfl⟩ fun _ => Or.inl rfl
  cases a with
  | step job =>
    have hstep := step_cases r job
    show ∃ l', (r.step job).listeners[i]? = some l' ∧ _
    generalize r.step job = r' at hstep
    cases hstep with
    | idle => exact hsame r rfl
    | abandons => exact hsame (r.abandon job) rfl
    | @goes _ _ t =>
      cases t with
      | done | pause => exact hsame _ rfl
    | hears hjob hturn h =>
      cases h with
      | ends | takes | waits => exact hsame _ rfl
      | stops | leaves =>
        exact exists_modifyListener hl ⟨rfl, rfl, rfl, rfl, id⟩ fun hi =>
          Or.inr ⟨Listening.noConfusion, job, rfl, hi ▸ hjob⟩
      | calls => exact exists_modifyListener hl ⟨rfl, rfl, rfl, rfl, id⟩ fun _ => Or.inl rfl
  | register page w source =>
    rcases perform_register r page w source with heq | ⟨s, -, heq⟩ <;> rw [heq]
    · exact hsame r rfl
    · refine ⟨l, ?_, .refl l, Or.inl rfl⟩
      exact (List.getElem?_append_left (List.getElem?_eq_some_iff.mp hl).1).trans hl
  | deregister page =>
    rcases perform_deregister r page with heq | ⟨_, _, heq⟩ <;> rw [heq]
    · exact hsame r rfl
    · exact hcancel _
  | cancel subscription => exact hcancel subscription
  | unsubscribe subscription => exact hcancel subscription
  | takeMixerCompleted subscription =>
    exact exists_modifyListener hl ⟨rfl, rfl, rfl, rfl, id⟩ fun _ => Or.inl rfl
  | others registry =>
    rcases perform_others r registry with heq | ⟨-, heq⟩ <;> rw [heq] <;> exact hsame _ rfl
  | release | addSource | setRefusing | announce | closeSource | watch | takeTickets =>
    exact hsame _ rfl

theorem later_after {r : Relay ε} {i : Nat} {l : Listener} (hl : r.listeners[i]? = some l)
    (acts : List (Act ε)) :
    ∃ l', (r.after acts).listeners[i]? = some l' ∧ l.Later l' := by
  induction acts generalizing r l with
  | nil => exact ⟨l, hl, .refl l⟩
  | cons a acts ih =>
    obtain ⟨l', hl', hlater, -⟩ := perform_listeners hl a
    obtain ⟨l'', hl'', hlater'⟩ := ih hl'
    exact ⟨l'', hl'', hlater.trans hlater'⟩

/-- A subscription that is not cancelled has not been cancelled before. -/
theorem isCancelled_of_perform {r : Relay ε} {i : Nat} {l : Listener} {a : Act ε}
    (hl : r.listeners[i]? = some l) (h : ¬(r.perform a).isCancelled i) : ¬r.isCancelled i := by
  obtain ⟨l', hl', hlater, -⟩ := perform_listeners hl a
  unfold isCancelled at h ⊢
  rw [hl'] at h
  rw [hl]
  exact fun hc => h (hlater.cancelled hc)

theorem isCancelled_of_after {r : Relay ε} {i : Nat} {l : Listener} {acts : List (Act ε)}
    (hl : r.listeners[i]? = some l) (h : ¬(r.after acts).isCancelled i) : ¬r.isCancelled i := by
  induction acts generalizing r l with
  | nil => exact h
  | cons a acts ih =>
    obtain ⟨l', hl', -⟩ := perform_listeners hl a
    exact isCancelled_of_perform hl (ih hl' h)

/-! ## What is told -/

/-- Who watches makes no difference to what the views carry. -/
theorem carries_watch {b : EventBus ViewEvent} {history : List ViewEvent} (h : b.Carries history)
    (receivers : List (Nat × Nat)) (nextReceiver : Nat) :
    { b with receivers, nextReceiver }.Carries history :=
  ⟨h.sent, h.buffer⟩

theorem batch?_of_turn? {r : Relay ε} {job : Nat} (h : r.turn? job = none) :
    Moment.batch? ⟨r, .step job⟩ = none := by
  unfold Moment.batch?
  dsimp only
  rw [h]

theorem batch?_of_done {r : Relay ε} {job subscription : Nat} {wait : Wait}
    {events : List ViewEvent} {s : Registry ε}
    (h : r.turn? job = some (subscription, wait, .done events s)) :
    Moment.batch? ⟨r, .step job⟩ = some ⟨job, subscription, events⟩ := by
  unfold Moment.batch?
  dsimp only
  rw [h]

theorem batch?_of_pause {r : Relay ε} {job subscription : Nat} {wait wait' : Wait}
    {s : Registry ε} {resume : Registry ε → Turns Wait (Registry ε) (List ViewEvent)}
    (h : r.turn? job = some (subscription, wait, .pause wait' s resume)) :
    Moment.batch? ⟨r, .step job⟩ = none := by
  unfold Moment.batch?
  dsimp only
  rw [h]

/-- The views carry what is told besides what they carried before. -/
theorem views_perform {m : Moment ε} {history : List ViewEvent}
    (h : m.before.views.Carries history) :
    m.after.views.Carries (history ++ m.batch?.toList.flatMap (·.events)) := by
  obtain ⟨r, a⟩ := m
  unfold Moment.after
  dsimp only at h ⊢
  have hquiet : ∀ r' : Relay ε, r'.views = r.views → Moment.batch? ⟨r, a⟩ = none →
      r'.views.Carries (history ++ (Moment.batch? ⟨r, a⟩).toList.flatMap (·.events)) := by
    intro r' hviews hbatch
    rw [hviews, hbatch]
    exact (List.append_nil history).symm ▸ h
  cases a with
  | step job =>
    have hstep := step_cases r job
    show (r.step job).views.Carries _
    generalize r.step job = r' at hstep
    cases hstep with
    | idle _ hturn => exact hquiet r rfl (batch?_of_turn? hturn)
    | abandons _ hturn => exact hquiet _ rfl (batch?_of_turn? hturn)
    | hears _ hturn hhears =>
      refine hquiet _ ?_ (batch?_of_turn? hturn)
      cases hhears <;> rfl
    | @goes subscription wait t _ hturn =>
      cases t with
      | done events s =>
        rw [batch?_of_done hturn]
        show (r.views.emit events).Carries _
        rw [Option.toList_some, List.flatMap_singleton]
        exact h.emit events
      | pause => exact hquiet _ rfl (batch?_of_pause hturn)
  | register page w source =>
    rcases perform_register r page w source with heq | ⟨s, -, heq⟩ <;> rw [heq] <;>
      exact hquiet _ rfl rfl
  | deregister page =>
    rcases perform_deregister r page with heq | ⟨_, _, heq⟩ <;> rw [heq] <;> exact hquiet _ rfl rfl
  | others registry =>
    rcases perform_others r registry with heq | ⟨-, heq⟩ <;> rw [heq] <;> exact hquiet _ rfl rfl
  | watch receivers nextReceiver =>
    exact (List.append_nil history).symm ▸ carries_watch h receivers nextReceiver
  | cancel | release | unsubscribe | takeMixerCompleted | addSource | setRefusing | announce
    | closeSource | takeTickets => exact hquiet _ rfl rfl

end Relay

end Purse
