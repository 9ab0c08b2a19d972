import Purse.Engine.InMemory
import Purse.Engine.Monitored
import Purse.Proofs.Registry.Returning
import Purse.Proofs.Relay.Household

/-!
# Abandoning a refresh is safe

A listener may be cancelled at any moment, however many of its refreshes are under way and
wherever they wait. `Unharmed` says what is true in a house at that moment as at any other:
nobody is in a line who is not at work, every picture was taken by one refresh, and what
pages and callers got is what the answers to their own calls made of it. `Abandons` says what
becomes of a refresh of the cancelled listener.

All others return (`Returns`) if turns are dealt out fairly: everybody who is at work has one
some time, at a moment when no engine holds him back (`Fair`). A refresh that is abandoned may
be held back for ever; it need not be let in to end.

Main statement: `abandoning_harms_nobody`.
-/

namespace Purse.House

open Relay (Moment)

variable {ε α : Type} [Engine ε] {config : Config} {ms : List (Moment ε)} {h : House ε α}
  {run : Nat → Act ε α}

/-! ## Fair runs -/

/-- The act in which somebody has a turn. -/
def turn : Worker → Act ε α
  | .job n => .relay (.step n) fun _ heq => nomatch heq
  | .caller i => .go i

/-- The first acts of a run. -/
def upTo (run : Nat → Act ε α) (t : Nat) : List (Act ε α) :=
  (List.range t).map run

theorem after_upTo_succ (t : Nat) :
    h.after (upTo run (t + 1)) = (h.after (upTo run t)).perform (run t) := by
  unfold upTo
  rw [List.range_succ, List.map_append, after_append]
  rfl

/-- An engine does not let the call in for which somebody waits. -/
def Held (h : House ε α) (work : Work ε) : Prop :=
  (∃ engine call, work.wait = .admission engine call) ∧ ¬h.relay.registry.isOver work.wait

/-- Whoever is at work has a turn some time, when no engine holds him back unless he has been
abandoned. -/
def Fair (h : House ε α) (run : Nat → Act ε α) : Prop :=
  ∀ x t, ∃ t', t ≤ t' ∧ ∀ work, (h.after (upTo run t')).work? x = some work →
    run t' = turn x ∧ ((h.after (upTo run t')).Held work →
      ∃ n, x = .job n ∧ (h.after (upTo run t')).relay.isAbandoned n)

/-- A turn is taken by whoever need not wait, and also by whoever is to be abandoned. -/
theorem goes_turn {x : Worker} {work : Work ε} (hx : h.work? x = some work)
    (hready : h.relay.registry.isOver work.wait ∨ ∃ n, x = .job n ∧ h.relay.isAbandoned n) :
    Workers.Goes h.workers x (h.perform (turn x)).workers := by
  cases x with
  | job n =>
    obtain ⟨subscription, wait, resume, hjob, rfl⟩ := refresh_of_work? hx
    show Workers.Goes _ _ (⟨h.relay.step n, h.callers⟩ : House ε α).workers
    by_cases hcancelled : h.relay.isCancelled subscription
    · rw [Relay.step_cancelled hjob hcancelled]
      exact goes_abandon hjob
    · have hover : h.relay.registry.isOver wait := by
        apply hready.resolve_right
        intro habandoned
        obtain ⟨_, heq, habandoned⟩ := habandoned
        cases heq
        obtain ⟨_, _, _, hjob', hcancelled'⟩ := Relay.exists_of_isAbandoned habandoned
        cases hjob.symm.trans hjob'
        exact hcancelled hcancelled'
      rw [Relay.step_refresh hjob hcancelled hover]
      exact goes_advance hjob hover
  | caller i =>
    obtain ⟨c, wait, rest, hc, hwaits, rfl⟩ := waits_of_work? hx
    have hover : h.relay.registry.isOver wait := by
      apply hready.resolve_right
      intro habandoned
      obtain ⟨_, heq, -⟩ := habandoned
      cases heq
    show Workers.Goes _ _ (h.perform (.go i)).workers
    rw [perform_go hc hwaits hover]
    exact goes_take hc hwaits hover

/-- Only a call and a lock are waited for. -/
theorem held_or_blocked {work : Work ε} (hover : ¬h.relay.registry.isOver work.wait) :
    h.Held work ∨ h.workers.Blocked work := by
  cases hwait : work.wait with
  | answer | look | room | turn =>
    rw [hwait] at hover
    exact absurd rfl hover
  | admission engine call => exact Or.inl ⟨⟨engine, call, hwait⟩, hover⟩
  | lock key ticket =>
    refine Or.inr ⟨key, ticket, hwait, fun hhead => hover ?_⟩
    rw [hwait]
    exact Registry.isOver_lock hhead

/-- What happens in a fair run is a run of workers. -/
theorem Fair.workers (hf : h.Fair run) (hh : Household config ms h) :
    Workers.Run fun t => (h.after (upTo run t)).workers where
  step t := by
    have hstep := (hh.after (upTo run t)).step (run t)
    rwa [← after_upTo_succ] at hstep
  orderly t := (hh.after (upTo run t)).orderly
  fair x t := by
    obtain ⟨t', hle, hfair⟩ := hf x t
    refine ⟨t', hle, fun work hx => ?_⟩
    obtain ⟨hturn, hheld⟩ := hfair work hx
    rw [after_upTo_succ, hturn]
    by_cases hover : (h.after (upTo run t')).relay.registry.isOver work.wait
    · exact Or.inl (goes_turn hx (Or.inl hover))
    · rcases held_or_blocked hover with hh | hblocked
      · exact Or.inl (goes_turn hx (Or.inr (hheld hh)))
      · exact Or.inr hblocked

/-! ## Whoever is abandoned -/

/-- Nothing more is heard of a doomed refresh. -/
theorem Household.silent (hh : Household config ms h) {n : Nat} (hd : h.relay.Doomed n)
    (acts : List (Act ε α)) :
    Relay.turnsOf (ms ++ h.moments acts) n = Relay.turnsOf ms n ∧
      Relay.batchesOf (ms ++ h.moments acts) n = Relay.batchesOf ms n := by
  induction acts generalizing ms h with
  | nil =>
    rw [moments, List.append_nil]
    exact ⟨rfl, rfl⟩
  | cons a acts ih =>
    obtain ⟨hdoomed, hturns, hbatches⟩ := hd.perform (h.relayAct a)
    rw [← hh.relay a] at hdoomed
    obtain ⟨hturns', hbatches'⟩ := ih (hh.perform a) hdoomed
    rw [moments, List.append_cons]
    exact ⟨hturns'.trans hturns, hbatches'.trans hbatches⟩

/-- Whoever has ended is in no line for good. -/
theorem Household.gone (hh : Household config ms h) {ticket : Nat} (hlt : ticket < h.relay.nextJob)
    (hnone : ∀ x work, h.workers.work? x = some work → work.ticket ≠ ticket)
    (acts : List (Act ε α)) (key : Nat) : ticket ∉ (h.after acts).relay.registry.line key := by
  induction acts generalizing ms h with
  | nil =>
    intro hmem
    obtain ⟨x, work, hx, hticket⟩ := hh.orderly.atWork key ticket hmem
    exact hnone x work hx hticket
  | cons a acts ih =>
    obtain ⟨hlt', hnone'⟩ := (hh.step a).gone hlt hnone
    exact ih (hh.perform a) hlt' hnone'

/-- What becomes of a refresh whose subscription is cancelled. -/
structure Abandons (config : Config) (acts : List (Act ε α)) (n : Nat) : Prop where
  /-- No picture has changed in its turns, unless the registry's refresh had ended. -/
  halfway : ∃ subscription w reason,
    Relay.CalledFor ((new config).moments acts) n subscription w reason ∧
      Relay.Halfway n w config.effectiveConfirmations (Relay.turnsOf ((new config).moments acts) n)
  /-- Whatever happens, it has no turn any more and the pages are told nothing about it. -/
  silent : ∀ more, Relay.turnsOf ((new config).moments (acts ++ more)) n =
      Relay.turnsOf ((new config).moments acts) n ∧
    Relay.batchesOf ((new config).moments (acts ++ more)) n = []
  /-- When it is due it ends, and nothing but its place in line is touched. -/
  ends : (((new config).after acts).perform (turn (.job n))).relay =
    ((new config : House ε α).after acts).relay.abandon n
  pictures : ∀ key, (((new config).after acts).perform (turn (.job n))).relay.registry.picture key =
    ((new config : House ε α).after acts).relay.registry.picture key
  /-- From then on it is in no line. -/
  gone : ∀ more key,
    n ∉ ((((new config).after acts).perform (turn (.job n))).after more).relay.registry.line key

theorem abandons {acts : List (Act ε α)} {n : Nat}
    (habandoned : ((new config : House ε α).after acts).relay.isAbandoned n) :
    Abandons config acts n := by
  have hh := household_after config acts
  have hdoomed := hh.recorded.doomed habandoned
  obtain ⟨subscription, wait, resume, hjob, hcancelled⟩ := Relay.exists_of_isAbandoned habandoned
  have hends : (((new config : House ε α).after acts).perform (turn (.job n))).relay =
      ((new config).after acts).relay.abandon n := Relay.step_cancelled hjob hcancelled
  constructor
  · obtain ⟨w, reason, hcalled, hwaits⟩ := hh.waiting n subscription wait resume hjob
    exact ⟨subscription, w, reason, hcalled, Relay.halfway hwaits (hh.config_found (.job n))⟩
  · intro more
    obtain ⟨hturns, hbatches⟩ := hh.silent hdoomed more
    rw [moments_append]
    exact ⟨hturns, hbatches.trans (hh.told.quiet hjob)⟩
  · exact hends
  · intro key
    rw [hends]
    exact Registry.picture_leave key
  · have hx : ((new config : House ε α).after acts).work? (.job n) = some (.of n wait resume) :=
      congrArg (·.bind (Job.work? n)) hjob
    have hgoes := goes_turn hx (Or.inr ⟨n, rfl, habandoned⟩)
    have hnone : (((new config : House ε α).after acts).perform (turn (.job n))).workers.work?
        (.job n) = none := by
      show Option.bind _ _ = none
      rw [hends]
      show ((Relay.finish _ n).jobs.lookup n).bind _ = none
      rw [Relay.lookup_finish]
      rfl
    refine (hh.perform (turn (.job n))).gone ?_ (hgoes.gone hh.orderly hx hnone)
    exact Nat.lt_of_lt_of_le (hh.recorded.numbered.lt_of_lookup hjob) (hh.step _).next

/-! ## All others -/

/-- What is true in a house at any moment. -/
structure Unharmed (config : Config) (acts : List (Act ε α)) : Prop where
  /-- Whoever is in a line is at work, also the one who has the lock. -/
  lines : ∀ key ticket, ticket ∈ ((new config : House ε α).after acts).relay.registry.line key →
    ∃ x work, ((new config).after acts).work? x = some work ∧ work.ticket = ticket
  /-- A picture was taken by one refresh that has ended. -/
  pictures : ∀ key p,
    ((new config : House ε α).after acts).relay.registry.picture key = some p →
    ∃ x, Taken config (turnsOf ((new config).moments acts) ((new config).after acts) x)
      ((new config).after acts).relay.registry key p
  /-- What the pages were told of a refresh is what the answers to its calls made of it. -/
  told : ∀ b ∈ Relay.batches ((new config).moments acts), ∃ w reason,
    Relay.CalledFor ((new config).moments acts) b.job b.subscription w reason ∧
      Relay.Answered b.job w config.effectiveConfirmations reason
        (Relay.turnsOf ((new config).moments acts) b.job) b.events
  /-- What a caller has returned is what its program comes to in its turns. -/
  returned : ∀ (i : Nat) (c : Caller ε α) (a : α), ((new config).after acts).callers[i]? = some c →
    c.calling = .returned a → (∃ s, c.program.Course c.turns (.done a s)) ∧
      ∀ w k, c.program = ((Registry.refresh c.ticket w).run >>= k) →
        Registry.Given c.ticket w config.effectiveConfirmations k c.turns a

theorem unharmed (config : Config) (acts : List (Act ε α)) : Unharmed config acts := by
  have hh := household_after config acts
  constructor
  · exact hh.orderly.atWork
  · exact hh.taken
  · intro b hb
    obtain ⟨-, -, w, reason, s, hcalled, hcourse⟩ := hh.told b hb
    exact ⟨w, reason, hcalled, Relay.answered hcourse (hh.config_found (.job b.job))⟩
  · intro i c a hc hreturned
    have hcame := hh.came i c hc
    unfold Caller.Came at hcame
    rw [hreturned] at hcame
    obtain ⟨s, hcourse⟩ := hcame
    refine ⟨⟨s, hcourse⟩, fun w k hprogram => ?_⟩
    have hturns := hh.config_found (.caller i)
    unfold turnsOf at hturns
    dsimp only at hturns
    rw [turns_caller hc] at hturns
    rw [hprogram] at hcourse
    exact Registry.given hcourse hturns

/-- What becomes of all who are at work. -/
structure Returns (config : Config) (acts : List (Act ε α)) (run : Nat → Act ε α) : Prop where
  /-- Everybody ends some time, also whoever is abandoned. -/
  ends : ∀ x t, ∃ t', t ≤ t' ∧ ((new config).after (acts ++ upTo run t')).work? x = none
  /-- A caller who is not given up returns. -/
  callers : ∀ (i t : Nat) (c : Caller ε α),
    ((new config).after (acts ++ upTo run t)).callers[i]? = some c → c.calling ≠ .givenUp →
    (∀ s, run s ≠ .giveUp i) → ∃ t' c' a, t ≤ t' ∧
      ((new config).after (acts ++ upTo run t')).callers[i]? = some c' ∧ c'.ticket = c.ticket ∧
        c'.program = c.program ∧ c'.calling = .returned a
  /-- The pages are told once of a refresh, unless its own subscription is cancelled. -/
  pages : ∀ n subscription w reason t,
    Relay.CalledFor ((new config).moments (acts ++ upTo run t)) n subscription w reason →
    ∃ t', t ≤ t' ∧ (((new config).after (acts ++ upTo run t')).relay.isCancelled subscription ∨
      ∃ events, Relay.batchesOf ((new config).moments (acts ++ upTo run t')) n =
          [⟨n, subscription, events⟩] ∧
        Relay.Answered n w config.effectiveConfirmations reason
          (Relay.turnsOf ((new config).moments (acts ++ upTo run t')) n) events)

/-- As long as a caller is not given up it stays the one it is. -/
theorem caller_lasts {i : Nat} {c : Caller ε α} (hc : h.callers[i]? = some c)
    (hcalling : c.calling ≠ .givenUp) (acts : List (Act ε α)) (hacts : ∀ a ∈ acts, a ≠ .giveUp i) :
    ∃ c', (h.after acts).callers[i]? = some c' ∧ c'.ticket = c.ticket ∧ c'.program = c.program ∧
      c'.calling ≠ .givenUp := by
  induction acts generalizing h c with
  | nil => exact ⟨c, hc, rfl, rfl, hcalling⟩
  | cons a acts ih =>
    obtain ⟨c', hc', hbecomes⟩ := becomes hc a
    obtain ⟨hticket, hprogram, hcalling'⟩ : c'.ticket = c.ticket ∧ c'.program = c.program ∧
        c'.calling ≠ .givenUp := by
      cases hbecomes with
      | same => exact ⟨rfl, rfl, hcalling⟩
      | givenUp ha => exact absurd ha (hacts a List.mem_cons_self)
      | @goes wait rest =>
        refine ⟨rfl, rfl, ?_⟩
        unfold Caller.take
        cases rest h.relay.registry with
        | done | pause => exact fun heq => nomatch heq
    obtain ⟨c'', hc'', hticket', hprogram', hcalling''⟩ :=
      ih hc' hcalling' fun a' ha' => hacts a' (List.mem_cons_of_mem a ha')
    exact ⟨c'', hc'', hticket'.trans hticket, hprogram'.trans hprogram, hcalling''⟩

theorem upTo_of_le (run : Nat → Act ε α) {t t' : Nat} (hle : t ≤ t') :
    ∃ rest, upTo run t' = upTo run t ++ rest ∧ ∀ a ∈ rest, ∃ s, a = run s := by
  induction t', hle using Nat.le_induction with
  | base => exact ⟨[], (List.append_nil _).symm, fun a ha => nomatch ha⟩
  | succ s hle ih =>
    obtain ⟨rest, heq, hrest⟩ := ih
    refine ⟨rest ++ [run s], ?_, fun a ha => ?_⟩
    · unfold upTo at heq ⊢
      rw [List.range_succ, List.map_append, heq, List.append_assoc]
      rfl
    · rcases List.mem_append.mp ha with ha | ha
      · exact hrest a ha
      · exact ⟨s, List.mem_singleton.mp ha⟩

omit [Engine ε] in
/-- A caller that is not at work any more has returned, if it was not given up. -/
theorem returned_of_ended {i : Nat} {c : Caller ε α} (hc : h.callers[i]? = some c)
    (hcalling : c.calling ≠ .givenUp) (hnone : h.work? (.caller i) = none) :
    ∃ a, c.calling = .returned a := by
  cases hreturned : c.calling with
  | returned a => exact ⟨a, rfl⟩
  | givenUp => exact absurd hreturned hcalling
  | waits wait rest => cases hnone.symm.trans (work?_waits hc hreturned)

/-- What the pages were told of a refresh that has ended. -/
theorem Household.told_of_ended (hh : Household config ms h) {n subscription : Nat} {w : WalletId}
    {reason : RefreshReason} (hcalled : Relay.CalledFor ms n subscription w reason)
    (hcancelled : ¬h.relay.isCancelled subscription) (hnone : h.work? (.job n) = none) :
    ∃ events, Relay.batchesOf ms n = [⟨n, subscription, events⟩] ∧
      Relay.Answered n w config.effectiveConfirmations reason (Relay.turnsOf ms n) events := by
  obtain ⟨m, hm, hcall, rfl⟩ := hcalled
  cases hh.recorded.comes m hm subscription w reason hcall hcancelled with
  | underWay hjob =>
    have hwork := congrArg (·.bind (Job.work? m.before.nextJob)) hjob
    cases hnone.symm.trans hwork
  | ended _ hcourse hbatches =>
    exact ⟨_, hbatches, Relay.answered hcourse (hh.config_found (.job m.before.nextJob))⟩

theorem returns {acts : List (Act ε α)} (hf : ((new config).after acts).Fair run) :
    Returns config acts run := by
  have hends : ∀ x t, ∃ t', t ≤ t' ∧ ((new config).after (acts ++ upTo run t')).work? x = none :=
    fun x t => by
      obtain ⟨t', hle, hnone⟩ := (hf.workers (household_after config acts)).returns x t
      refine ⟨t', hle, ?_⟩
      rw [after_append]
      exact hnone
  refine ⟨hends, ?_, ?_⟩
  · intro i t c hc hcalling hrun
    obtain ⟨t', hle, hnone⟩ := hends (.caller i) t
    obtain ⟨rest, hrest, hmem⟩ := upTo_of_le run hle
    obtain ⟨c', hc', hticket, hprogram, hcalling'⟩ := caller_lasts hc hcalling rest fun a ha heq => by
      obtain ⟨s, rfl⟩ := hmem a ha
      exact hrun s heq
    rw [← after_append, List.append_assoc, ← hrest] at hc'
    obtain ⟨a, hreturned⟩ := returned_of_ended hc' hcalling' hnone
    exact ⟨t', c', a, hle, hc', hticket, hprogram, hreturned⟩
  · intro n subscription w reason t hcalled
    obtain ⟨t', hle, hnone⟩ := hends (.job n) t
    refine ⟨t', hle, ?_⟩
    obtain ⟨rest, hrest, -⟩ := upTo_of_le run hle
    have hcalled' : Relay.CalledFor ((new config : House ε α).moments (acts ++ upTo run t')) n
        subscription w reason := by
      rw [hrest, ← List.append_assoc, moments_append]
      exact hcalled.append _
    by_cases hcancelled :
        ((new config : House ε α).after (acts ++ upTo run t')).relay.isCancelled subscription
    · exact Or.inl hcancelled
    · exact Or.inr ((household_after config _).told_of_ended hcalled' hcancelled hnone)

/-- Whether nobody is at work any more. -/
def isDone (h : House ε α) : Bool :=
  (h.relay.jobs.all fun j => (j.2.work? j.1).isNone) && h.callers.all fun c => c.work?.isNone

omit [Engine ε] in
theorem work?_of_isDone (hd : h.isDone) (x : Worker) : h.work? x = none := by
  unfold isDone at hd
  rw [Bool.and_eq_true, List.all_eq_true, List.all_eq_true] at hd
  obtain ⟨hjobs, hcallers⟩ := hd
  cases x with
  | job n =>
    cases hjob : h.relay.jobs.lookup n with
    | none => exact congrArg (·.bind (Job.work? n)) hjob
    | some j =>
      have hnone := hjobs (n, j) (Keyed.mem_of_lookup hjob)
      exact (congrArg (·.bind (Job.work? n)) hjob).trans (Option.isNone_iff_eq_none.mp hnone)
  | caller i =>
    cases hc : h.callers[i]? with
    | none => exact congrArg (Option.bind · Caller.work?) hc
    | some c =>
      have hnone := hcallers c (List.mem_of_getElem? hc)
      exact (congrArg (Option.bind · Caller.work?) hc).trans (Option.isNone_iff_eq_none.mp hnone)

/-- Acts after which nothing happens any more. -/
def thenNothing (acts : List (Act ε α)) (t : Nat) : Act ε α :=
  acts[t]?.getD (.relay (.takeTickets 0) nofun)

theorem after_thenNothing (h : House ε α) (acts : List (Act ε α)) (k : Nat) :
    h.after (upTo (thenNothing acts) (acts.length + k)) = h.after acts := by
  induction k with
  | zero =>
    have hall : upTo (thenNothing acts) acts.length = acts := by
      refine List.ext_getElem (by simp [upTo]) fun i _ hi => ?_
      simp [upTo, thenNothing, hi]
    exact congrArg h.after hall
  | succ k ih =>
    have hnothing : thenNothing acts (acts.length + k) = .relay (.takeTickets 0) nofun := by
      unfold thenNothing
      rw [List.getElem?_eq_none (Nat.le_add_right _ _)]
      rfl
    rw [← Nat.add_assoc, after_upTo_succ, ih, hnothing]
    rfl

/-- Where all get to their ends nobody has to wait for a turn. -/
theorem fair_thenNothing {acts : List (Act ε α)} (hd : (h.after acts).isDone) :
    h.Fair (thenNothing acts) := by
  intro x t
  refine ⟨acts.length + t, Nat.le_add_left _ _, fun work hx => ?_⟩
  rw [after_thenNothing, work?_of_isDone hd] at hx
  cases hx

/-- At any moment listeners may be cancelled: whatever refreshes of theirs are under way are
given up without effect, and everybody else goes on and returns. -/
theorem abandoning_harms_nobody (config : Config) (acts : List (Act ε α)) :
    Unharmed config acts ∧
      (∀ n, ((new config : House ε α).after acts).relay.isAbandoned n → Abandons config acts n) ∧
      ∀ run, ((new config).after acts).Fair run → Returns config acts run := by
  refine ⟨unharmed config acts, ?_, ?_⟩
  · intro n habandoned
    exact abandons habandoned
  · intro run hfair
    exact returns hfair

namespace Sample

/-- An engine with one account, which may hold the listing back. -/
def engine (held : Bool) : Monitored InMemoryEngine where
  engine :=
    { asset := .dcr, blockHash := default, blockHeight := 5
      accounts := [{ number := 0, name := "default", balance := .signed 5 5 0 0 0 0 0 }] }
  held

/-- A wallet is loaded and refreshed. -/
def opening (ticket : Nat) : Registry.Op (Monitored InMemoryEngine) Accounts :=
  Registry.load 7 (engine false) >>= fun _ => Registry.refresh ticket 7

theorem opening_calls (ticket : Nat) : (opening ticket).Calls ticket :=
  .bind ((Request.load 7 (engine false)).calls ticket) fun _ => (Request.refresh 7).calls ticket

/-- Two pages and a caller refresh the wallet. The first page has the lock and waits for the
engine when its subscription ends; the others wait for the lock. -/
def acts : List (Act (Monitored InMemoryEngine) (Outcome Accounts)) :=
  .begin (fun ticket => (opening ticket).run) opening_calls :: List.replicate 16 (.go 0) ++
    [.relay (.addSource 4) nofun, .relay (.register "a" 7 0) nofun,
      .relay (.register "b" 7 0) nofun, .relay (.announce 0 [.newTransaction 7 "aa"]) nofun,
      turn (.job 1), turn (.job 2),
      .begin (fun ticket => (Registry.refresh ticket 7).run) fun _ => .refresh 7,
      .engines [engine true]] ++
    List.replicate 5 (turn (.job 3)) ++ List.replicate 4 (turn (.job 4)) ++
    List.replicate 4 (.go 1) ++ [.relay (.deregister "a") nofun]

/-- The first page's refresh ends, the engine lets calls in again, and the others go on. -/
def goingOn : List (Act (Monitored InMemoryEngine) (Outcome Accounts)) :=
  [turn (.job 3), .engines [engine false]] ++ List.replicate 16 (turn (.job 4)) ++
    List.replicate 16 (.go 1)

theorem abandoning_harms_nobody_held :
    ((new {} : House _ _).after acts).relay.isAbandoned 3 ∧ Abandons {} acts 3 ∧
      ((new {}).after acts).Fair (thenNothing goingOn) ∧ Returns {} acts (thenNothing goingOn) := by
  obtain ⟨-, habandons, hreturns⟩ := abandoning_harms_nobody {} acts
  have hthree : ((new {} : House _ _).after acts).relay.isAbandoned 3 := by decide +kernel
  have hfair : ((new {}).after acts).Fair (thenNothing goingOn) :=
    fair_thenNothing (by decide +kernel)
  exact ⟨hthree, habandons 3 hthree, hfair, hreturns _ hfair⟩

example : Relay.batches ((new {}).moments (acts ++ goingOn)) =
    [⟨4, 1, [.accountsRefreshed 7, .transactionsChanged 7]⟩] := by
  decide +kernel

end Sample

end Purse.House
