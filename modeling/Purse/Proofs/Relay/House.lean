import Purse.Proofs.Registry.Workers
import Purse.Proofs.Relay.Batches

/-!
# Pages and callers under one roof

Refreshes are called for by the listeners of pages, and besides by programs that call for
them directly. A `House` is a relay with all such callers there ever were. They take turns in
any order with the jobs of the relay; a caller may be given up wherever it waits, and engines
may change in any way.

For the registry, all who are under way are `Workers`, and whatever happens in a house is a
step of theirs (`House.step`). For the relay, callers are others who change the registry
(`House.perform_relay`), so that the history of a relay is there too (`House.moments`).
-/

namespace Purse

variable {ε α : Type}

/-- How far a caller has come. -/
inductive Calling (ε α : Type) where
  | waits (wait : Wait) (rest : Flow Wait (Registry ε) α)
  | returned (a : α)
  /-- Whoever wanted the answer does not wait for it any longer. -/
  | givenUp

/-- A program that calls for refreshes under a ticket, with all turns that it had. -/
structure Caller (ε α : Type) where
  ticket : Nat
  program : Flow Wait (Registry ε) α
  turns : List (Turn Wait (Registry ε)) := []
  calling : Calling ε α := .waits .answer program

/-- A relay with all callers there ever were, by number. -/
structure House (ε α : Type) where
  relay : Relay ε
  callers : List (Caller ε α) := []

/-- Those who may be at work in a house. -/
inductive Worker where
  | job (n : Nat)
  | caller (i : Nat)
  deriving DecidableEq

/-! ## Work to do -/

/-- What a program has left, whatever it comes to. -/
def Work.of (ticket : Nat) (wait : Wait) (rest : Flow Wait (Registry ε) α) : Work ε :=
  ⟨ticket, wait, rest >>= fun _ => pure ()⟩

theorem Work.of_after (ticket : Nat) (wait : Wait) (rest : Flow Wait (Registry ε) α)
    (s : Registry ε) : (Work.of ticket wait rest).after ((Work.of ticket wait rest).rest s) =
      (rest s).left?.map fun (wait, rest) => .of ticket wait rest := by
  show Work.after _ ((rest s).bind _) = _
  cases rest s <;> rfl

theorem Work.of_state (ticket : Nat) (wait : Wait) (rest : Flow Wait (Registry ε) α)
    (s : Registry ε) : ((Work.of ticket wait rest).rest s).state = (rest s).state := by
  show ((rest s).bind _).state = _
  cases rest s <;> rfl

/-- What a job has left of a refresh. -/
def Job.work? (n : Nat) : Job ε → Option (Work ε)
  | listen _ => none
  | refresh _ wait resume => some (.of n wait resume)

namespace Caller

/-- What a caller has left. -/
def work? (c : Caller ε α) : Option (Work ε) :=
  match c.calling with
  | .waits wait rest => some (.of c.ticket wait rest)
  | .returned _ | .givenUp => none

/-- Where a turn leaves a caller. -/
def take (c : Caller ε α) (wait : Wait) (found : Registry ε)
    (t : Turns Wait (Registry ε) α) : Caller ε α :=
  { c with
    turns := c.turns ++ [⟨wait, found, t.state⟩]
    calling := match t with
      | .done a _ => .returned a
      | .pause wait _ rest => .waits wait rest }

def giveUp (c : Caller ε α) : Caller ε α :=
  { c with calling := .givenUp }

end Caller

namespace House

/-! ## What may happen -/

/-- A house with a registry without wallets. -/
def new (config : Config) : House ε α :=
  { relay := .new { config } }

def setRegistry (h : House ε α) (registry : Registry ε) : House ε α :=
  { h with relay := { h.relay with registry } }

def modify (h : House ε α) (i : Nat) (f : Caller ε α → Caller ε α) : House ε α :=
  { h with callers := h.callers.modify i f }

variable [Engine ε]

/-- What may happen next. -/
inductive Act (ε α : Type) [Engine ε] where
  /-- Something happens to the relay. Others are not at work on its registry but for callers. -/
  | relay (a : Relay.Act ε) (h : ∀ registry, a ≠ .others registry)
  /-- Somebody begins a program under a new ticket. -/
  | begin (program : Nat → Flow Wait (Registry ε) α)
      (h : ∀ ticket, Calls ticket (program ticket))
  /-- A caller has a turn, if it need not wait. -/
  | go (i : Nat)
  /-- A caller is given up wherever it waits. -/
  | giveUp (i : Nat)
  /-- Engines change in any way. -/
  | engines (engines : List ε)

def perform (h : House ε α) : Act ε α → House ε α
  | .relay a _ => { h with relay := h.relay.perform a }
  | .begin program _ =>
    { relay := h.relay.perform (.takeTickets 1)
      callers := h.callers ++ [{ ticket := h.relay.nextJob, program := program h.relay.nextJob }] }
  | .go i =>
    match h.callers[i]? with
    | some ⟨_, _, _, .waits wait rest⟩ =>
      if h.relay.registry.isOver wait then
        let t := rest h.relay.registry
        (h.modify i fun c => c.take wait h.relay.registry t).setRegistry t.state
      else h
    | _ => h
  | .giveUp i =>
    match h.callers[i]? with
    | some ⟨ticket, _, _, .waits _ _⟩ =>
      (h.modify i Caller.giveUp).setRegistry (h.relay.registry.leave ticket)
    | _ => h
  | .engines engines => h.setRegistry { h.relay.registry with engines }

def after (h : House ε α) (acts : List (Act ε α)) : House ε α :=
  acts.foldl perform h

theorem after_append (h : House ε α) (acts acts' : List (Act ε α)) :
    h.after (acts ++ acts') = (h.after acts).after acts' :=
  List.foldl_append

/-- What happens to the relay in an act. -/
def relayAct (h : House ε α) : Act ε α → Relay.Act ε
  | .relay a _ => a
  | .begin _ _ => .takeTickets 1
  | a => .others (h.perform a).relay.registry

/-- The history of the relay in the house. -/
def moments (h : House ε α) : List (Act ε α) → List (Relay.Moment ε)
  | [] => []
  | a :: acts => ⟨h.relay, h.relayAct a⟩ :: (h.perform a).moments acts

theorem moments_append (h : House ε α) (acts acts' : List (Act ε α)) :
    h.moments (acts ++ acts') = h.moments acts ++ (h.after acts).moments acts' := by
  induction acts generalizing h with
  | nil => rfl
  | cons a acts ih => exact congrArg (_ :: ·) (ih (h.perform a))

omit [Engine ε] in
/-- What somebody has left to do. -/
def work? (h : House ε α) : Worker → Option (Work ε)
  | .job n => (h.relay.jobs.lookup n).bind (Job.work? n)
  | .caller i => h.callers[i]?.bind Caller.work?

omit [Engine ε] in
/-- All who are at work. -/
def workers (h : House ε α) : Workers Worker ε where
  registry := h.relay.registry
  next := h.relay.nextJob
  work? := h.work?

/-! ## Steps of workers -/

variable {h h' : House ε α} {n i : Nat}

/-- Nothing happens to anybody's work. -/
theorem moves_same (hregistry : h'.relay.registry = h.relay.registry)
    (hwork : ∀ y, h'.work? y = h.work? y) : Workers.Moves h.workers h'.workers :=
  .engines h.relay.registry.engines hregistry hwork

omit [Engine ε] in
theorem work?_finish (r : Relay ε) (callers : List (Caller ε α)) (n : Nat) (y : Worker) :
    (⟨r.finish n, callers⟩ : House ε α).work? y =
      if y = .job n then none else (⟨r, callers⟩ : House ε α).work? y := by
  cases y with
  | caller i => rfl
  | job m =>
    have hlookup : (r.finish n).jobs.lookup m = if m = n then none else r.jobs.lookup m :=
      Keyed.lookup_erase n m r.jobs
    show ((r.finish n).jobs.lookup m).bind _ = _
    rw [hlookup]
    by_cases hm : m = n
    · simp [hm]
    · simp [hm, work?]

omit [Engine ε] in
theorem work?_pause (r : Relay ε) (callers : List (Caller ε α)) (n subscription : Nat)
    {j : Job ε} (hjob : r.jobs.lookup n = some j) (wait : Wait) (s : Registry ε)
    (rest : Registry ε → Turns Wait (Registry ε) (List ViewEvent)) (y : Worker) :
    (⟨r.advance n subscription (.pause wait s rest), callers⟩ : House ε α).work? y =
      if y = .job n then some (.of n wait rest) else (⟨r, callers⟩ : House ε α).work? y := by
  cases y with
  | caller i => rfl
  | job m =>
    by_cases hm : m = n
    · subst hm
      rw [if_pos rfl]
      exact congrArg (·.bind (Job.work? m)) (Relay.lookup_advance_pause hjob _ _ _ _)
    · have hlookup : (r.advance n subscription (.pause wait s rest)).jobs.lookup m =
          r.jobs.lookup m := (Keyed.lookup_replace _ _ _ _).trans (if_neg hm)
      rw [if_neg fun heq => hm (Worker.job.inj heq)]
      exact congrArg (·.bind (Job.work? m)) hlookup

omit [Engine ε] in
theorem work?_start (r : Relay ε) (callers : List (Caller ε α)) (hr : r.Numbered)
    (job : Nat → Job ε) (y : Worker) :
    (⟨r.start job, callers⟩ : House ε α).work? y =
      if y = .job r.nextJob then (job r.nextJob).work? r.nextJob
      else (⟨r, callers⟩ : House ε α).work? y := by
  cases y with
  | caller i => rfl
  | job m =>
    show ((r.jobs ++ [(r.nextJob, job r.nextJob)]).lookup m).bind _ = _
    rw [List.lookup_append, List.lookup_cons]
    by_cases hm : m = r.nextJob
    · rw [hm, hr.lookup (Nat.le_refl _), beq_self_eq_true, if_pos rfl]
      rfl
    · rw [beq_eq_false_iff_ne.mpr hm, List.lookup_nil, Option.or_none]
      simp [hm, work?]

/-- Somebody joins where a refresh is started. -/
theorem moves_start {r : Relay ε} (hr : h.relay.Numbered)
    (hregistry : r.registry = h.relay.registry) (hjobs : r.jobs = h.relay.jobs)
    (hnext : r.nextJob = h.relay.nextJob) (subscription : Nat) (w : WalletId)
    (reason : RefreshReason) : Workers.Moves h.workers
      (⟨r.startRefresh subscription w reason, h.callers⟩ : House ε α).workers := by
  have hr' : r.Numbered := by
    unfold Relay.Numbered
    rw [hjobs, hnext]
    exact hr
  have hwork := work?_start r h.callers hr' fun ticket =>
    .refresh subscription .answer (Relay.refreshEvents ticket w reason)
  have hsame : ∀ y, (⟨r, h.callers⟩ : House ε α).work? y = h.work? y := fun y => by
    cases y with
    | caller i => rfl
    | job m => exact congrArg (fun jobs => (jobs.lookup m).bind (Job.work? m)) hjobs
  have hnone : h.workers.work? (.job r.nextJob) = none :=
    congrArg (·.bind (Job.work? r.nextJob)) (hr.lookup (Nat.le_of_eq hnext.symm))
  have hnew : h.workers.next ≤ (Work.of r.nextJob .answer
      (Relay.refreshEvents r.nextJob w reason : Flow Wait (Registry ε) _)).ticket :=
    Nat.le_of_eq hnext.symm
  refine .join hnone hnew (Nat.lt_succ_self _) trivial
    (.bind (Relay.refreshEvents_calls r.nextJob w reason) fun _ => .pure ()) hregistry
    ((hwork _).trans (if_pos rfl)) fun y hy => ?_
  exact ((hwork y).trans (if_neg hy)).trans (hsame y)

omit [Engine ε] in
theorem refresh_of_work? {work : Work ε} (hx : h.work? (.job n) = some work) :
    ∃ subscription wait resume,
      h.relay.jobs.lookup n = some (.refresh subscription wait resume) ∧
        work = .of n wait resume := by
  obtain ⟨j, hjob, hwork⟩ :=
    Option.bind_eq_some_iff.mp (show (h.relay.jobs.lookup n).bind _ = _ from hx)
  cases j with
  | listen => cases hwork
  | refresh subscription wait resume =>
    cases hwork
    exact ⟨subscription, wait, resume, hjob, rfl⟩

/-- A refresh for a page is given up. -/
theorem goes_abandon {subscription : Nat} {wait : Wait}
    {resume : Registry ε → Turns Wait (Registry ε) (List ViewEvent)}
    (hjob : h.relay.jobs.lookup n = some (.refresh subscription wait resume)) :
    Workers.Goes h.workers (.job n) (⟨h.relay.abandon n, h.callers⟩ : House ε α).workers := by
  have hwork : h.workers.work? (.job n) = some (.of n wait resume) :=
    congrArg (·.bind (Job.work? n)) hjob
  have hgone := work?_finish { h.relay with registry := h.relay.registry.leave n } h.callers n
  exact .quit hwork rfl ((hgone _).trans (if_pos rfl)) fun y hy => (hgone y).trans (if_neg hy)

/-- A refresh for a page has a turn. -/
theorem goes_advance {subscription : Nat} {wait : Wait}
    {resume : Registry ε → Turns Wait (Registry ε) (List ViewEvent)}
    (hjob : h.relay.jobs.lookup n = some (.refresh subscription wait resume))
    (hover : h.relay.registry.isOver wait) :
    Workers.Goes h.workers (.job n)
      (⟨h.relay.advance n subscription (resume h.relay.registry), h.callers⟩ : House ε α).workers := by
  have hwork : h.workers.work? (.job n) = some (.of n wait resume) :=
    congrArg (·.bind (Job.work? n)) hjob
  have hregistry : (h.relay.advance n subscription (resume h.relay.registry)).registry =
      ((Work.of n wait resume).rest h.relay.registry).state :=
    (Relay.registry_advance _ _).trans (Work.of_state n wait resume h.relay.registry).symm
  refine .turn hwork hover hregistry ?_ fun y hy => ?_
  · refine Eq.trans ?_ (Work.of_after n wait resume h.relay.registry).symm
    generalize resume h.relay.registry = t
    cases t with
    | done events s => exact (work?_finish _ h.callers n _).trans (if_pos rfl)
    | pause wait' s rest =>
      exact (work?_pause _ h.callers n subscription hjob wait' s rest _).trans (if_pos rfl)
  · generalize resume h.relay.registry = t
    cases t with
    | done events s => exact (work?_finish _ h.callers n _).trans (if_neg hy)
    | pause wait' s rest =>
      exact (work?_pause _ h.callers n subscription hjob wait' s rest _).trans (if_neg hy)

/-- A step of a job is one of a worker. -/
theorem moves_step (hr : h.relay.Numbered) :
    Workers.Moves h.workers (⟨h.relay.step n, h.callers⟩ : House ε α).workers := by
  have hstep := Relay.step_cases h.relay n
  generalize h.relay.step n = r' at hstep
  cases hstep with
  | idle => exact moves_same rfl fun _ => rfl
  | abandons _ _ hjob => exact .goes (goes_abandon hjob)
  | goes _ hturn =>
    obtain ⟨resume, hjob, -, rfl⟩ := Relay.lookup_of_turn? hturn
    exact .goes (goes_advance hjob (Relay.isOver_of_turn? hturn))
  | hears hlisten _ hhears =>
    -- the job of a listener is nobody's work
    have hnone : h.work? (.job n) = none := congrArg (·.bind (Job.work? n)) hlisten
    have hends : ∀ y, (⟨h.relay.finish n, h.callers⟩ : House ε α).work? y = h.work? y := fun y => by
      rw [work?_finish]
      split
      · next hy => rw [hy, hnone]
      · rfl
    cases hhears with
    | ends | stops => exact moves_same rfl hends
    | leaves | takes | waits => exact moves_same rfl fun _ => rfl
    | calls => exact moves_start hr rfl rfl rfl _ _ _

theorem moves_relay (hr : h.relay.Numbered) {a : Relay.Act ε}
    (ha : ∀ registry, a ≠ .others registry) :
    Workers.Moves h.workers (⟨h.relay.perform a, h.callers⟩ : House ε α).workers := by
  cases a with
  | step n => exact moves_step hr
  | register page w source =>
    rcases Relay.perform_register h.relay page w source with heq | ⟨s, -, heq⟩ <;> rw [heq]
    · exact moves_same rfl fun _ => rfl
    · -- a listener joins, who does no work on the registry
      have hwork := work?_start h.relay h.callers hr fun _ => .listen h.relay.listeners.length
      refine moves_same rfl fun y => (hwork y).trans ?_
      by_cases hy : y = .job h.relay.nextJob
      · rw [if_pos hy, hy]
        exact (congrArg (·.bind (Job.work? h.relay.nextJob)) (hr.lookup (Nat.le_refl _))).symm
      · exact if_neg hy
  | deregister page =>
    rcases Relay.perform_deregister h.relay page with heq | ⟨_, _, heq⟩ <;> rw [heq] <;>
      exact moves_same rfl fun _ => rfl
  | others registry => exact absurd rfl (ha registry)
  | cancel | release | unsubscribe | takeMixerCompleted | addSource | setRefusing | announce
    | closeSource | watch | takeTickets => exact moves_same rfl fun _ => rfl

/-! ### Callers -/

omit [Engine ε] in
theorem getElem?_modify (h : House ε α) (i : Nat) (f : Caller ε α → Caller ε α) (j : Nat) :
    (h.modify i f).callers[j]? = h.callers[j]?.map fun c => if i = j then f c else c := by
  show (h.callers.modify i f)[j]? = _
  rw [List.getElem?_modify]
  by_cases hi : i = j <;> simp [hi]

omit [Engine ε] in
theorem getElem?_modify_self {c : Caller ε α} (hc : h.callers[i]? = some c)
    (f : Caller ε α → Caller ε α) : (h.modify i f).callers[i]? = some (f c) := by
  rw [getElem?_modify, hc, Option.map_some, if_pos rfl]

omit [Engine ε] in
/-- Only the work of one caller becomes another. -/
theorem work?_modify {c : Caller ε α} (hc : h.callers[i]? = some c)
    (f : Caller ε α → Caller ε α) (y : Worker) :
    (h.modify i f).work? y = if y = .caller i then (f c).work? else h.work? y := by
  cases y with
  | job m => rfl
  | caller j =>
    show (h.modify i f).callers[j]?.bind Caller.work? = _
    rw [getElem?_modify]
    by_cases hj : i = j
    · subst hj
      rw [hc, if_pos rfl]
      simp
    · rw [if_neg fun heq => hj (Worker.caller.inj heq).symm]
      simp only [if_neg hj, Option.map_id']
      rfl

omit [Engine ε] in
theorem work?_waits {c : Caller ε α} {wait : Wait} {rest : Flow Wait (Registry ε) α}
    (hc : h.callers[i]? = some c) (hwaits : c.calling = .waits wait rest) :
    h.workers.work? (.caller i) = some (.of c.ticket wait rest) := by
  show h.callers[i]?.bind Caller.work? = _
  rw [hc]
  unfold Caller.work?
  dsimp only [Option.bind_some]
  rw [hwaits]

omit [Engine ε] in
theorem waits_of_work? {work : Work ε} (hx : h.work? (.caller i) = some work) :
    ∃ c wait rest, h.callers[i]? = some c ∧ c.calling = .waits wait rest ∧
      work = .of c.ticket wait rest := by
  obtain ⟨c, hc, hwork⟩ := Option.bind_eq_some_iff.mp (show h.callers[i]?.bind _ = _ from hx)
  unfold Caller.work? at hwork
  split at hwork
  · next wait rest hwaits =>
    cases hwork
    exact ⟨c, wait, rest, hc, hwaits, rfl⟩
  · cases hwork
  · cases hwork

/-- What a caller does that is told to go on. -/
inductive Going (h : House ε α) (i : Nat) : House ε α → Prop
  | idle : Going h i h
  | goes {c : Caller ε α} {wait : Wait} {rest : Flow Wait (Registry ε) α}
      (hc : h.callers[i]? = some c) (hwaits : c.calling = .waits wait rest)
      (hover : h.relay.registry.isOver wait) :
      Going h i ((h.modify i fun c => c.take wait h.relay.registry
        (rest h.relay.registry)).setRegistry (rest h.relay.registry).state)

theorem perform_go {c : Caller ε α} {wait : Wait} {rest : Flow Wait (Registry ε) α}
    (hc : h.callers[i]? = some c) (hwaits : c.calling = .waits wait rest)
    (hover : h.relay.registry.isOver wait) :
    h.perform (.go i) = (h.modify i fun c => c.take wait h.relay.registry
      (rest h.relay.registry)).setRegistry (rest h.relay.registry).state := by
  obtain ⟨ticket, program, turns, calling⟩ := c
  cases hwaits
  unfold perform
  dsimp only
  rw [hc]
  exact if_pos hover

theorem go_cases (h : House ε α) (i : Nat) : Going h i (h.perform (.go i)) := by
  unfold perform
  dsimp only
  split
  · next hc =>
    split
    · next hover => exact .goes hc rfl hover
    · exact .idle
  · exact .idle

theorem goes_take {c : Caller ε α} {wait : Wait} {rest : Flow Wait (Registry ε) α}
    (hc : h.callers[i]? = some c) (hwaits : c.calling = .waits wait rest)
    (hover : h.relay.registry.isOver wait) :
    Workers.Goes h.workers (.caller i) ((h.modify i fun c => c.take wait h.relay.registry
        (rest h.relay.registry)).setRegistry (rest h.relay.registry).state).workers := by
  have hmodify := work?_modify hc fun c => c.take wait h.relay.registry (rest h.relay.registry)
  refine .turn (work?_waits hc hwaits) hover
    (Work.of_state c.ticket wait rest h.relay.registry).symm ?_
    fun y hy => (hmodify y).trans (if_neg hy)
  refine Eq.trans ?_ (Work.of_after c.ticket wait rest h.relay.registry).symm
  refine ((hmodify _).trans (if_pos rfl)).trans ?_
  unfold Caller.take Caller.work?
  cases rest h.relay.registry <;> rfl

/-- What becomes of a caller who is given up. -/
inductive GivingUp (h : House ε α) (i : Nat) : House ε α → Prop
  | idle : GivingUp h i h
  | gives {c : Caller ε α} {wait : Wait} {rest : Flow Wait (Registry ε) α}
      (hc : h.callers[i]? = some c) (hwaits : c.calling = .waits wait rest) :
      GivingUp h i ((h.modify i Caller.giveUp).setRegistry (h.relay.registry.leave c.ticket))

theorem giveUp_cases (h : House ε α) (i : Nat) : GivingUp h i (h.perform (.giveUp i)) := by
  unfold perform
  dsimp only
  split
  · next hc => exact .gives hc rfl
  · exact .idle

theorem goes_giveUp {c : Caller ε α} {wait : Wait} {rest : Flow Wait (Registry ε) α}
    (hc : h.callers[i]? = some c) (hwaits : c.calling = .waits wait rest) :
    Workers.Goes h.workers (.caller i)
      ((h.modify i Caller.giveUp).setRegistry (h.relay.registry.leave c.ticket)).workers := by
  have hmodify := work?_modify hc Caller.giveUp
  exact .quit (work?_waits hc hwaits) rfl ((hmodify _).trans (if_pos rfl)) fun y hy =>
    (hmodify y).trans (if_neg hy)

theorem moves_begin (program : Nat → Flow Wait (Registry ε) α)
    (hcalls : ∀ ticket, Calls ticket (program ticket)) :
    Workers.Moves h.workers (h.perform (.begin program hcalls)).workers := by
  have hnone : h.workers.work? (.caller h.callers.length) = none :=
    congrArg (Option.bind · Caller.work?) (List.getElem?_eq_none (Nat.le_refl _))
  have hcalls' := (hcalls h.relay.nextJob).bind fun _ => .pure ()
  refine @Workers.Moves.join _ _ _ _ _ (.caller h.callers.length)
    (.of h.relay.nextJob .answer (program h.relay.nextJob)) hnone (Nat.le_refl _)
    (Nat.lt_succ_self _) trivial hcalls' rfl ?_ fun y hy => ?_
  · exact congrArg (Option.bind · Caller.work?) List.getElem?_concat_length
  · cases y with
    | job m => rfl
    | caller j =>
      have hj : j ≠ h.callers.length := fun heq => hy (congrArg Worker.caller heq)
      refine congrArg (Option.bind · Caller.work?) ?_
      show (h.callers ++ [_])[j]? = h.callers[j]?
      rw [List.getElem?_append]
      split
      · rfl
      · rw [List.getElem?_eq_none (by rw [List.length_singleton]; omega),
          List.getElem?_eq_none (by omega)]

/-- What becomes of a caller in an act. -/
inductive Becomes (h : House ε α) (a : Act ε α) (i : Nat) (c : Caller ε α) : Caller ε α → Prop
  | same : Becomes h a i c c
  | goes {wait : Wait} {rest : Flow Wait (Registry ε) α} (ha : a = .go i)
      (hwaits : c.calling = .waits wait rest) (hover : h.relay.registry.isOver wait)
      (hregistry : (h.perform a).relay.registry = (rest h.relay.registry).state) :
      Becomes h a i c (c.take wait h.relay.registry (rest h.relay.registry))
  | givenUp {wait : Wait} {rest : Flow Wait (Registry ε) α} (ha : a = .giveUp i)
      (hwaits : c.calling = .waits wait rest) : Becomes h a i c c.giveUp

theorem becomes_modify {a : Act ε α} {c : Caller ε α} {j : Nat} {f : Caller ε α → Caller ε α}
    (hc : h.callers[i]? = some c) (hf : j = i → h.Becomes a i c (f c)) :
    ∃ c', (h.modify j f).callers[i]? = some c' ∧ h.Becomes a i c c' := by
  rw [getElem?_modify, hc]
  by_cases hj : j = i
  · exact ⟨f c, by simp [hj], hf hj⟩
  · exact ⟨c, by simp [hj], .same⟩

theorem becomes {c : Caller ε α} (hc : h.callers[i]? = some c) (a : Act ε α) :
    ∃ c', (h.perform a).callers[i]? = some c' ∧ h.Becomes a i c c' := by
  have hlt := (List.getElem?_eq_some_iff.mp hc).1
  cases a with
  | relay | engines => exact ⟨c, hc, .same⟩
  | begin program hcalls => exact ⟨c, (List.getElem?_append_left hlt).trans hc, .same⟩
  | go j =>
    have hgo := go_cases h j
    generalize hh : h.perform (.go j) = h' at hgo
    cases hgo with
    | idle => exact ⟨c, hc, .same⟩
    | goes hc' hwaits hover =>
      apply becomes_modify hc
      intro hj
      subst hj
      cases hc.symm.trans hc'
      exact .goes rfl hwaits hover (congrArg (·.relay.registry) hh)
  | giveUp j =>
    have hgiveUp := giveUp_cases h j
    generalize h.perform (.giveUp j) = h' at hgiveUp
    cases hgiveUp with
    | idle => exact ⟨c, hc, .same⟩
    | gives hc' hwaits =>
      apply becomes_modify hc
      intro hj
      subst hj
      cases hc.symm.trans hc'
      exact .givenUp rfl hwaits

/-- Whoever is new has begun in this act. -/
theorem caller_new {c : Caller ε α} {a : Act ε α} (hnone : h.callers[i]? = none)
    (hc : (h.perform a).callers[i]? = some c) : ∃ program hcalls, a = .begin program hcalls ∧
      c = { ticket := h.relay.nextJob, program := program h.relay.nextJob } := by
  cases a with
  | relay | engines => cases hnone.symm.trans hc
  | begin program hcalls =>
    have hc : (h.callers ++ [_])[i]? = some c := hc
    rcases getElem?_concat hc with hc | ⟨-, rfl⟩
    · cases hnone.symm.trans hc
    · exact ⟨program, hcalls, rfl, rfl⟩
  | go j =>
    have hgo := go_cases h j
    generalize h.perform (.go j) = h' at hgo hc
    cases hgo with
    | idle => cases hnone.symm.trans hc
    | goes => cases ((getElem?_modify h j _ i).trans (congrArg _ hnone)).symm.trans hc
  | giveUp j =>
    have hgiveUp := giveUp_cases h j
    generalize h.perform (.giveUp j) = h' at hgiveUp hc
    cases hgiveUp with
    | idle => cases hnone.symm.trans hc
    | gives => cases ((getElem?_modify h j _ i).trans (congrArg _ hnone)).symm.trans hc

/-- Whatever happens is a step of the workers. -/
theorem step (hr : h.relay.Numbered) (a : Act ε α) :
    Workers.Step h.workers (h.perform a).workers := by
  cases a with
  | relay a ha => exact ⟨Relay.nextJob_le_perform h.relay a, moves_relay hr ha⟩
  | begin program hcalls => exact ⟨Nat.le_succ _, moves_begin program hcalls⟩
  | go i =>
    have hgo := go_cases h i
    generalize h.perform (.go i) = h' at hgo
    cases hgo with
    | idle => exact ⟨Nat.le_refl _, moves_same rfl fun _ => rfl⟩
    | goes hc hwaits hover => exact ⟨Nat.le_refl _, .goes (goes_take hc hwaits hover)⟩
  | giveUp i =>
    have hgiveUp := giveUp_cases h i
    generalize h.perform (.giveUp i) = h' at hgiveUp
    cases hgiveUp with
    | idle => exact ⟨Nat.le_refl _, moves_same rfl fun _ => rfl⟩
    | gives hc hwaits => exact ⟨Nat.le_refl _, .goes (goes_giveUp hc hwaits)⟩
  | engines engines => exact ⟨Nat.le_refl _, .engines engines rfl fun _ => rfl⟩

/-- For the relay, what callers do is done by others. -/
theorem perform_relay (hr : h.relay.Numbered) (ho : h.workers.Orderly) (a : Act ε α) :
    (h.perform a).relay = h.relay.perform (h.relayAct a) := by
  have hothers : ∀ h' : House ε α, (∃ registry, h'.relay = { h.relay with registry }) →
      Workers.Step h.workers h'.workers →
      h'.relay = h.relay.perform (.others h'.relay.registry) := fun h' hrelay hstep => by
    obtain ⟨ticket, honward⟩ := hstep.onward ho
    refine Eq.trans ?_ (if_pos honward.accesses).symm
    obtain ⟨registry, hrelay⟩ := hrelay
    show h'.relay = { h.relay with registry := h'.relay.registry }
    rw [hrelay]
  have hstep := step hr a
  cases a with
  | relay a ha => rfl
  | begin program hcalls => rfl
  | go i =>
    refine hothers _ ?_ hstep
    have hgo := go_cases h i
    generalize h.perform (.go i) = h' at hgo
    cases hgo with
    | idle | goes => exact ⟨_, rfl⟩
  | giveUp i =>
    refine hothers _ ?_ hstep
    have hgiveUp := giveUp_cases h i
    generalize h.perform (.giveUp i) = h' at hgiveUp
    cases hgiveUp with
    | idle | gives => exact ⟨_, rfl⟩
  | engines engines => exact hothers _ ⟨_, rfl⟩ hstep

end House

end Purse
