import Mathlib.Data.List.Basic
import Purse.Proofs.Relay.Answers
import Purse.Proofs.Relay.Batches

/-!
# Refreshes that are abandoned

Whatever has become of its subscription, a refresh that is under way is where its turns have
brought it (`Waiting`). So either the refresh of the registry in it has not ended and no
picture has changed in its turns, or that has ended and was all that could change one
(`Halfway`). Whatever the pages were told, they were told at the end of such turns (`ToldAtEnd`).

A refresh of a cancelled subscription is `Doomed`: it has no turn any more, and nothing is
told about it. All that it still does is to end, in the one step in which its place in line
is freed (`Doomed.step`).
-/

namespace Purse.Relay

variable {ε : Type} [Engine ε] {ms : List (Moment ε)} {r : Relay ε} {a : Act ε}
  {n subscription : Nat} {w : WalletId} {reason : RefreshReason} {wait : Wait}
  {resume : Registry ε → Turns Wait (Registry ε) (List ViewEvent)}

/-! ## Where a refresh is -/

/-- A receipt has called for the refresh. -/
def CalledFor (ms : List (Moment ε)) (n subscription : Nat) (w : WalletId)
    (reason : RefreshReason) : Prop :=
  ∃ m ∈ ms, m.call? = some (subscription, w, reason) ∧ m.before.nextJob = n

omit [Engine ε] in
theorem CalledFor.append (h : CalledFor ms n subscription w reason) (more : List (Moment ε)) :
    CalledFor (ms ++ more) n subscription w reason := by
  obtain ⟨m, hm, hcall⟩ := h
  exact ⟨m, List.mem_append_left _ hm, hcall⟩

/-- Every refresh under way is where its turns have brought it. -/
def Waiting (ms : List (Moment ε)) (r : Relay ε) : Prop :=
  ∀ n subscription wait resume, r.jobs.lookup n = some (.refresh subscription wait resume) →
    ∃ w reason, CalledFor ms n subscription w reason ∧
      (refreshEvents n w reason).Waits .answer (turnsOf ms n) wait resume

/-- The turn of a refresh in a step. -/
theorem turnsOf_step {t : Turns Wait (Registry ε) (List ViewEvent)}
    (hturn : r.turn? n = some (subscription, wait, t)) :
    turnsOf (ms ++ [⟨r, .step n⟩]) n = turnsOf ms n ++ [⟨wait, r.registry, t.state⟩] := by
  rw [turnsOf_concat]
  unfold Moment.turn? Moment.after
  dsimp only
  rw [if_pos rfl, hturn]
  show _ ++ [(⟨_, _, (r.step n).registry⟩ : Turn Wait (Registry ε))] = _
  rw [step_of_turn? hturn, registry_advance]

/-- A step of a refresh leaves it where this turn has brought it. -/
theorem Waiting.step (h : Waiting ms r) (hr : Recorded ms r)
    (hjob : (r.step n).jobs.lookup n = some (.refresh subscription wait resume)) :
    ∃ w reason, CalledFor ms n subscription w reason ∧
      (refreshEvents n w reason).Waits .answer (turnsOf (ms ++ [⟨r, .step n⟩]) n) wait resume := by
  have hsame : r.turn? n = none → r.jobs.lookup n = some (.refresh subscription wait resume) →
      ∃ w reason, CalledFor ms n subscription w reason ∧ (refreshEvents n w reason).Waits .answer
        (turnsOf (ms ++ [⟨r, .step n⟩]) n) wait resume := fun hturn hjob => by
    rw [turnsOf_concat, turn?_of_none hturn, Option.toList_none, List.append_nil]
    exact h n subscription wait resume hjob
  have hstep := step_cases r n
  generalize r.step n = r' at hstep hjob
  cases hstep with
  | idle _ hturn => exact hsame hturn hjob
  | abandons => cases (lookup_finish _ n).symm.trans hjob
  | hears hlisten hturn hhears =>
    cases hhears with
    | ends | stops => cases (lookup_finish _ n).symm.trans hjob
    | leaves | takes | waits => exact hsame hturn hjob
    | calls =>
      rcases lookup_concat hjob with hjob | ⟨hn, -⟩
      · exact hsame hturn hjob
      · -- a new refresh has a number of its own
        have hnone := hr.numbered.lookup (Nat.le_of_eq hn.symm)
        rw [hlisten] at hnone
        cases hnone
  | @goes _ _ t _ hturn =>
    obtain ⟨m, hm, w, reason, hcall, hn, hcourse⟩ := hr.turn hturn
    rw [← turnsOf_step hturn] at hcourse
    obtain ⟨_, hthere, -⟩ := lookup_of_turn? hturn
    cases t with
    | done => cases (lookup_finish _ n).symm.trans hjob
    | pause =>
      cases (lookup_advance_pause hthere _ _ _ _).symm.trans hjob
      exact ⟨w, reason, ⟨m, hm, hcall, hn⟩, .pauses hcourse⟩

/-- What has been started in an act waits for its first turn. -/
theorem Waiting.start (hr : Recorded ms r) (hn : r.nextJob ≤ n)
    (hjob : (r.perform a).jobs.lookup n = some (.refresh subscription wait resume)) :
    ∃ w reason, CalledFor (ms ++ [⟨r, a⟩]) n subscription w reason ∧
      (refreshEvents n w reason).Waits .answer (turnsOf ms n) wait resume := by
  obtain ⟨hturns, -⟩ := hr.fresh n hn
  have hnone := hr.numbered.lookup hn
  have hjobs := perform_jobs r a
  generalize r.perform a = r' at hjobs hjob
  rw [hturns]
  cases hjobs with
  | same _ hjobs =>
    rw [hjobs, hnone] at hjob
    cases hjob
  | listens hjobs =>
    rw [hjobs] at hjob
    rcases lookup_concat hjob with hjob | ⟨-, heq⟩
    · rw [hnone] at hjob
      cases hjob
    · cases heq
  | calls hcall hjobs =>
    rw [hjobs] at hjob
    rcases lookup_concat hjob with hjob | ⟨rfl, heq⟩
    · rw [hnone] at hjob
      cases hjob
    · cases heq
      exact ⟨_, _, ⟨_, List.mem_append_right _ (List.mem_singleton_self _), hcall, rfl⟩, .begun⟩
  | @ends job _ _ hjobs =>
    have hlookup := (Keyed.lookup_erase job n r.jobs).symm.trans (hjobs ▸ hjob)
    rw [hnone, ite_self] at hlookup
    cases hlookup
  | @goesOn job _ _ _ _ _ hthere hjobs =>
    obtain ⟨_, _, hthere⟩ := hthere
    have hne : n ≠ job := fun heq => by
      rw [← heq, hnone] at hthere
      cases hthere
    rw [hjobs, Keyed.lookup_replace, if_neg hne, hnone] at hjob
    cases hjob

theorem Waiting.perform (h : Waiting ms r) (hr : Recorded ms r) (a : Act ε) :
    Waiting (ms ++ [⟨r, a⟩]) (r.perform a) := by
  intro n subscription wait resume hjob
  by_cases ha : a = .step n
  · subst ha
    obtain ⟨w, reason, hcalled, hwaits⟩ := h.step hr hjob
    exact ⟨w, reason, hcalled.append _, hwaits⟩
  · rw [turnsOf_concat, turn?_of_ne ha, Option.toList_none, List.append_nil]
    rcases Nat.lt_or_ge n r.nextJob with hn | hn
    · rw [lookup_perform hn ha] at hjob
      obtain ⟨w, reason, hcalled, hwaits⟩ := h n subscription wait resume hjob
      exact ⟨w, reason, hcalled.append _, hwaits⟩
    · exact Waiting.start hr hn hjob

theorem waiting_new (registry : Registry ε) : Waiting [] (new registry) :=
  fun _ _ _ _ h => nomatch h

/-- What the turns of a refresh under way have done. -/
inductive Halfway (n : Nat) (w : WalletId) (confirmations : UInt32) :
    List (Turn Wait (Registry ε)) → Prop
  /-- The registry's refresh has not ended, and no picture has changed. -/
  | unfinished {ts : List (Turn Wait (Registry ε))} {wait : Wait}
      {rest : Flow Wait (Registry ε) (Outcome Accounts)}
      (hwaits : (Registry.refresh n w).run.Waits .answer ts wait rest)
      (hsame : ∀ τ ∈ ts, ∀ key, τ.left.picture key = τ.found.picture key) :
      Halfway n w confirmations ts
  /-- It has ended, and only the mixer is still being asked for. -/
  | finished {pre post : List (Turn Wait (Registry ε))} {wait : Wait} {s s' s'' : Registry ε}
      {o : Outcome Accounts}
      (h : Registry.Refreshed n w confirmations (pre ++ [⟨wait, s, s'⟩]) o) :
      Halfway n w confirmations (pre ++ ⟨wait, s, s''⟩ :: post)

theorem halfway {ts : List (Turn Wait (Registry ε))} {config : Config}
    (h : (refreshEvents n w reason).Waits .answer ts wait resume)
    (hconfig : ∀ τ ∈ ts, τ.found.config = config) :
    Halfway n w config.effectiveConfirmations ts := by
  cases h with
  | begun => exact .unfinished .begun fun τ hτ => nomatch hτ
  | @pauses _ _ s _ h =>
    rw [refreshEvents_eq] at h
    generalize ht : Turns.pause wait s resume = t at h
    cases h.parts with
    | first hrefresh =>
      rcases Registry.refresh_pictures hrefresh with hsame | ⟨_, _, heq⟩
      · exact .unfinished (.pauses hrefresh) hsame
      · cases heq
    | second hrefresh => exact .finished (Registry.refreshed_first hrefresh hconfig)

/-! ## What has been told -/

/-- What the pages were told, they were told at the end of a refresh that a receipt has called
for. -/
def ToldAtEnd (ms : List (Moment ε)) (r : Relay ε) : Prop :=
  ∀ b ∈ batches ms, b.job < r.nextJob ∧ r.jobs.lookup b.job = none ∧
    ∃ w reason s, CalledFor ms b.job b.subscription w reason ∧
      (refreshEvents b.job w reason).Course (turnsOf ms b.job) (.done b.events s)

/-- Whoever has ended has no turn any more. -/
theorem lookup_perform_none (hn : n < r.nextJob) (hnone : r.jobs.lookup n = none) (a : Act ε) :
    (r.perform a).jobs.lookup n = none ∧ Moment.turn? ⟨r, a⟩ n = none := by
  have hturn : r.turn? n = none := by
    unfold turn?
    rw [hnone]
  refine ⟨?_, turn?_of_none hturn a⟩
  by_cases ha : a = .step n
  · subst ha
    show (r.step n).jobs.lookup n = none
    unfold step
    rw [hnone]
    exact hnone
  · exact (lookup_perform hn ha).trans hnone

theorem ToldAtEnd.perform (h : ToldAtEnd ms r) (hr : Recorded ms r) (a : Act ε) :
    ToldAtEnd (ms ++ [⟨r, a⟩]) (r.perform a) := by
  intro b hb
  rw [batches_concat] at hb
  rcases List.mem_append.mp hb with hb | hb
  · obtain ⟨hlt, hnone, w, reason, s, hcalled, hcourse⟩ := h b hb
    obtain ⟨hnone', hturn⟩ := lookup_perform_none hlt hnone a
    refine ⟨Nat.lt_of_lt_of_le hlt (nextJob_le_perform r a), hnone', w, reason, s,
      hcalled.append _, ?_⟩
    rw [turnsOf_concat, hturn, Option.toList_none, List.append_nil]
    exact hcourse
  · obtain ⟨job, subscription, events⟩ := b
    have hbatch := Option.mem_toList.mp hb
    obtain ⟨rfl, wait, resume, hjob⟩ := job_of_batch? hbatch
    have hlt := hr.numbered.lt_of_lookup hjob
    refine ⟨Nat.lt_of_lt_of_le hlt (nextJob_le_perform r _), ?_⟩
    unfold Moment.batch? at hbatch
    dsimp only at hbatch
    split at hbatch
    · next hturn =>
      cases hbatch
      obtain ⟨m, hm, w, reason, hcall, hn, hcourse⟩ := hr.turn hturn
      rw [← turnsOf_step hturn] at hcourse
      refine ⟨?_, w, reason, _, CalledFor.append ⟨m, hm, hcall, hn⟩ _, hcourse⟩
      show (r.step _).jobs.lookup _ = none
      rw [step_of_turn? hturn]
      exact lookup_finish _ _
    · cases hbatch

theorem told_new (registry : Registry ε) : ToldAtEnd [] (new registry) :=
  fun _ h => nomatch h

/-- As long as a refresh is under way the pages are told nothing about it. -/
theorem ToldAtEnd.quiet (h : ToldAtEnd ms r) {j : Job ε} (hjob : r.jobs.lookup n = some j) :
    batchesOf ms n = [] := by
  apply List.filter_eq_nil_iff.mpr
  intro b hb heq
  obtain ⟨-, hnone, -⟩ := h b hb
  rw [of_decide_eq_true heq, hjob] at hnone
  cases hnone

/-! ## After the cancellation -/

omit [Engine ε] in
/-- Whether the job is a refresh under way whose subscription was cancelled. -/
def isAbandoned (r : Relay ε) (n : Nat) : Bool :=
  match r.jobs.lookup n with
  | some (.refresh subscription _ _) => r.isCancelled subscription
  | some (.listen _) | none => false

omit [Engine ε] in
theorem exists_of_isAbandoned (h : r.isAbandoned n) : ∃ subscription wait resume,
    r.jobs.lookup n = some (.refresh subscription wait resume) ∧ r.isCancelled subscription := by
  unfold isAbandoned at h
  split at h
  · next hjob => exact ⟨_, _, _, hjob, h⟩
  · cases h
  · cases h

omit [Engine ε] in
/-- The job is a refresh of a subscription that was cancelled, or it has ended. -/
def Doomed (r : Relay ε) (n : Nat) : Prop :=
  n < r.nextJob ∧ ∀ j, r.jobs.lookup n = some j → ∃ subscription wait resume l,
    j = .refresh subscription wait resume ∧ r.listeners[subscription]? = some l ∧ l.cancelled

theorem Recorded.doomed (hr : Recorded ms r) (h : r.isAbandoned n) : r.Doomed n := by
  obtain ⟨subscription, wait, resume, hjob, hcancelled⟩ := exists_of_isAbandoned h
  refine ⟨hr.numbered.lt_of_lookup hjob, fun j hj => ?_⟩
  obtain ⟨m, hm, w, reason, hcall, -⟩ := hr.called n subscription wait resume hjob
  obtain ⟨-, l, hl⟩ := hr.known m hm _ hcall
  unfold isCancelled at hcancelled
  rw [hl] at hcancelled
  exact ⟨subscription, wait, resume, l, Option.some.inj (hj.symm.trans hjob), hl, hcancelled⟩

namespace Doomed

omit [Engine ε] in
theorem isCancelled (h : r.Doomed n)
    (hjob : r.jobs.lookup n = some (.refresh subscription wait resume)) :
    r.isCancelled subscription := by
  obtain ⟨_, _, _, l, heq, hl, hcancelled⟩ := h.2 _ hjob
  cases heq
  unfold Relay.isCancelled
  rw [hl]
  exact hcancelled

theorem turn? (h : r.Doomed n) : r.turn? n = none := by
  unfold Relay.turn?
  split
  · next hjob => exact if_pos (h.isCancelled hjob)
  · rfl

/-- In its next step it frees its place in line and ends. -/
theorem step (h : r.Doomed n) (hjob : r.jobs.lookup n = some (.refresh subscription wait resume)) :
    r.step n = r.abandon n :=
  step_cancelled hjob (h.isCancelled hjob)

/-- It stays doomed, and has no turn and tells nothing. -/
theorem perform (h : r.Doomed n) (a : Act ε) : (r.perform a).Doomed n ∧
    turnsOf (ms ++ [⟨r, a⟩]) n = turnsOf ms n ∧ batchesOf (ms ++ [⟨r, a⟩]) n = batchesOf ms n := by
  refine ⟨⟨Nat.lt_of_lt_of_le h.1 (nextJob_le_perform r a), fun j hj => ?_⟩, ?_, ?_⟩
  · by_cases ha : a = .step n
    · subst ha
      cases hjob : r.jobs.lookup n with
      | none =>
        obtain ⟨hnone, -⟩ := lookup_perform_none h.1 hjob (.step n)
        cases hnone.symm.trans hj
      | some j' =>
        obtain ⟨_, _, _, _, rfl, -⟩ := h.2 j' hjob
        have hj : (r.step n).jobs.lookup n = some j := hj
        rw [h.step hjob] at hj
        cases (lookup_finish _ n).symm.trans hj
    · rw [lookup_perform h.1 ha] at hj
      obtain ⟨subscription, wait, resume, l, rfl, hl, hcancelled⟩ := h.2 j hj
      obtain ⟨l', hl', hlater, -⟩ := perform_listeners hl a
      exact ⟨subscription, wait, resume, l', rfl, hl', hlater.cancelled hcancelled⟩
  · rw [turnsOf_concat, turn?_of_none h.turn?, Option.toList_none, List.append_nil]
  · rw [batchesOf_concat, batchesOf_of_none h.turn?, List.append_nil]

end Doomed

end Purse.Relay
