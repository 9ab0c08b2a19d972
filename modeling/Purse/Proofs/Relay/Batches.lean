import Mathlib.Data.List.Basic
import Purse.Engine.InMemory
import Purse.Proofs.Relay.Announcement
import Purse.Proofs.Relay.History

/-!
# One batch for every call

A refresh is started exactly where a receipt calls for one, and once it has ended the
pages have been told of it in exactly one batch, unless its subscription was cancelled.
What the batch says is what has happened in the turns of that refresh (`Announces`), and
nobody else tells the pages anything.

`Recorded` is what a history keeps of all that; the numbers of jobs, which are never used
again, tell its refreshes apart.

Main statement: `told_per_call`.
-/

namespace Purse.Relay

open Registry (Lasts)

variable {ε : Type} [Engine ε] {ms : List (Moment ε)} {r : Relay ε} {m : Moment ε} {a : Act ε}
  {n subscription : Nat} {w : WalletId} {reason : RefreshReason}

/-! ## Histories that grow -/

/-- What the pages were told at the end of a job. -/
def batchesOf (ms : List (Moment ε)) (job : Nat) : List Batch :=
  (batches ms).filter (·.job = job)

theorem turnsOf_concat (ms : List (Moment ε)) (m : Moment ε) (n : Nat) :
    turnsOf (ms ++ [m]) n = turnsOf ms n ++ (m.turn? n).toList := by
  unfold turnsOf
  rw [List.filterMap_append]
  cases h : m.turn? n <;> simp [h]

theorem batches_concat (ms : List (Moment ε)) (m : Moment ε) :
    batches (ms ++ [m]) = batches ms ++ m.batch?.toList := by
  unfold batches
  rw [List.filterMap_append]
  cases h : m.batch? <;> simp [h]

theorem batchesOf_concat (ms : List (Moment ε)) (m : Moment ε) (n : Nat) :
    batchesOf (ms ++ [m]) n = batchesOf ms n ++ m.batch?.toList.filter (·.job = n) := by
  unfold batchesOf
  rw [batches_concat, List.filter_append]

/-- Whose turn it is not has none, and tells nothing. -/
theorem turn?_of_ne (h : a ≠ .step n) : Moment.turn? ⟨r, a⟩ n = none := by
  unfold Moment.turn?
  cases a with
  | step job =>
    refine if_neg ?_
    rintro rfl
    exact h rfl
  | _ => rfl

theorem job_of_batch? {b : Batch} (h : Moment.batch? ⟨r, a⟩ = some b) :
    a = .step b.job ∧
      ∃ wait resume, r.jobs.lookup b.job = some (.refresh b.subscription wait resume) := by
  unfold Moment.batch? at h
  cases a with
  | step job =>
    dsimp only at h
    split at h
    · next hturn =>
      cases h
      obtain ⟨resume, hjob, -⟩ := lookup_of_turn? hturn
      exact ⟨rfl, _, _, hjob⟩
    · cases h
  | _ => cases h

theorem batchesOf_of_ne (h : a ≠ .step n) :
    (Moment.batch? ⟨r, a⟩).toList.filter (·.job = n) = [] := by
  cases hb : Moment.batch? ⟨r, a⟩ with
  | none => rfl
  | some b =>
    obtain ⟨hstep, -⟩ := job_of_batch? hb
    have hne : ¬b.job = n := by
      rintro rfl
      exact h hstep
    simp [hne]

theorem turn?_of_none (h : r.turn? n = none) (a : Act ε) : Moment.turn? ⟨r, a⟩ n = none := by
  by_cases ha : a = .step n
  · subst ha
    unfold Moment.turn?
    dsimp only
    rw [if_pos rfl, h]
    rfl
  · exact turn?_of_ne ha

theorem batchesOf_of_none (h : r.turn? n = none) (a : Act ε) :
    (Moment.batch? ⟨r, a⟩).toList.filter (·.job = n) = [] := by
  by_cases ha : a = .step n
  · subst ha
    rw [batch?_of_turn? h]
    rfl
  · exact batchesOf_of_ne ha

/-! ## Registrations last -/

omit [Engine ε] in
theorem lasts_others {s s' : Registry ε}
    (h : s.registrations.map (·.access) <+: s'.registrations.map (·.access)) : Lasts s s' := by
  intro key a ha
  unfold Registry.access? at ha ⊢
  rw [← List.getElem?_map] at ha ⊢
  obtain ⟨rest, hrest⟩ := h
  rw [← hrest]
  exact (List.getElem?_append_left (List.getElem?_eq_some_iff.mp ha).1).trans ha

theorem step_of_turn? {wait : Wait} {t : Turns Wait (Registry ε) (List ViewEvent)}
    (h : r.turn? n = some (subscription, wait, t)) : r.step n = r.advance n subscription t := by
  have hstep := step_cases r n
  generalize r.step n = r' at hstep
  cases hstep with
  | idle _ hturn | hears _ hturn | abandons _ hturn =>
    rw [h] at hturn
    cases hturn
  | goes _ hturn =>
    cases h.symm.trans hturn
    rfl

omit [Engine ε] in
theorem registry_advance (job : Nat) (t : Turns Wait (Registry ε) (List ViewEvent)) :
    (r.advance job subscription t).registry = t.state := by
  cases t <;> rfl

theorem lasts_perform (h : ∀ job subscription wait t, a = .step job →
    r.turn? job = some (subscription, wait, t) → Lasts r.registry t.state) :
    Lasts r.registry (r.perform a).registry := by
  have hsame : ∀ r' : Relay ε, r'.registry = r.registry → Lasts r.registry r'.registry :=
    fun r' heq => heq ▸ fun _ _ ha => ha
  cases a with
  | step job =>
    have hstep := step_cases r job
    show Lasts _ (r.step job).registry
    generalize r.step job = r' at hstep
    cases hstep with
    | idle => exact hsame r rfl
    | hears _ _ hhears =>
      refine hsame _ ?_
      cases hhears <;> rfl
    | abandons => exact fun key a ha => (Registry.access?_leave key).trans ha
    | goes _ hturn =>
      rw [registry_advance]
      exact h _ _ _ _ rfl hturn
  | others registry =>
    rcases perform_others r registry with heq | ⟨hlasts, heq⟩ <;> rw [heq]
    · exact hsame r rfl
    · exact lasts_others hlasts
  | _ => exact hsame _ (perform_registry r (fun _ heq => nomatch heq) fun _ heq => nomatch heq)

/-! ## What a history keeps -/

/-- How far a refresh has come that was called for and whose subscription goes on. -/
inductive Comes (ms : List (Moment ε)) (r : Relay ε) (n subscription : Nat) (w : WalletId)
    (reason : RefreshReason) : Prop
  | underWay {wait : Wait} {resume : Registry ε → Turns Wait (Registry ε) (List ViewEvent)}
      (hjob : r.jobs.lookup n = some (.refresh subscription wait resume))
      (hwaits : (refreshEvents n w reason).Waits .answer (turnsOf ms n) wait resume)
      (hbatches : batchesOf ms n = [])
  | ended {events : List ViewEvent} {s : Registry ε} (hjob : r.jobs.lookup n = none)
      (hcourse : (refreshEvents n w reason).Course (turnsOf ms n) (.done events s))
      (hbatches : batchesOf ms n = [⟨n, subscription, events⟩])

structure Recorded (ms : List (Moment ε)) (r : Relay ε) : Prop where
  numbered : r.Numbered
  views : r.views.Carries ((batches ms).flatMap (·.events))
  lasting : (ms.map (·.before.registry)).Pairwise Lasts
  lasted : ∀ m ∈ ms, Lasts m.before.registry r.registry
  /-- Whoever calls for a refresh is known and has a number of his own for it. -/
  known : ∀ m ∈ ms, ∀ call, m.call? = some call →
    m.before.nextJob < r.nextJob ∧ ∃ l, r.listeners[call.1]? = some l
  /-- Numbers to come have no history. -/
  fresh : ∀ n, r.nextJob ≤ n → turnsOf ms n = [] ∧ batchesOf ms n = []
  /-- All refreshes have been called for. -/
  called : ∀ n subscription wait resume,
    r.jobs.lookup n = some (.refresh subscription wait resume) →
    ∃ m ∈ ms, ∃ w reason, m.call? = some (subscription, w, reason) ∧ m.before.nextJob = n
  told : ∀ b ∈ batches ms, ∃ m ∈ ms, ∃ w reason, m.call? = some (b.subscription, w, reason) ∧
    m.before.nextJob = b.job
  comes : ∀ m ∈ ms, ∀ subscription w reason, m.call? = some (subscription, w, reason) →
    ¬r.isCancelled subscription → Comes ms r m.before.nextJob subscription w reason

theorem recorded_new (registry : Registry ε) : Recorded [] (new registry) where
  numbered := numbered_new registry
  views := EventBus.carries_new _
  lasting := .nil
  lasted _ h := nomatch h
  known _ h := nomatch h
  fresh _ _ := ⟨rfl, rfl⟩
  called _ _ _ _ h := nomatch h
  told _ h := nomatch h
  comes _ h := nomatch h

/-- A turn of a refresh is one of the work that was called for. -/
theorem Recorded.turn (h : Recorded ms r) {wait : Wait}
    {t : Turns Wait (Registry ε) (List ViewEvent)}
    (hturn : r.turn? n = some (subscription, wait, t)) :
    ∃ m ∈ ms, ∃ w reason, m.call? = some (subscription, w, reason) ∧ m.before.nextJob = n ∧
      (refreshEvents n w reason).Course (turnsOf ms n ++ [⟨wait, r.registry, t.state⟩]) t := by
  obtain ⟨resume, hjob, hcancelled, rfl⟩ := lookup_of_turn? hturn
  obtain ⟨m, hm, w, reason, hcall, rfl⟩ := h.called n subscription wait resume hjob
  refine ⟨m, hm, w, reason, hcall, rfl, ?_⟩
  cases h.comes m hm subscription w reason hcall hcancelled with
  | underWay hjob' hwaits =>
    cases hjob.symm.trans hjob'
    exact hwaits.turn r.registry
  | ended hjob' =>
    rw [hjob] at hjob'
    cases hjob'

theorem Recorded.lasts (h : Recorded ms r) (a : Act ε) :
    Lasts r.registry (r.perform a).registry := by
  refine lasts_perform fun job subscription wait t _ hturn => ?_
  obtain ⟨_, _, w, reason, _, _, hcourse⟩ := h.turn hturn
  exact (refreshEvents_within job w reason _ _ hcourse).1 ⟨wait, r.registry, t.state⟩
    (List.mem_append_right _ (List.mem_singleton_self _))

/-- What does not concern a refresh leaves it where it is. -/
theorem Comes.aside {r' : Relay ε} (h : Comes ms r n subscription w reason)
    (hjobs : r'.jobs.lookup n = r.jobs.lookup n) (hturn : Moment.turn? ⟨r, a⟩ n = none)
    (hbatch : (Moment.batch? ⟨r, a⟩).toList.filter (·.job = n) = []) :
    Comes (ms ++ [⟨r, a⟩]) r' n subscription w reason := by
  have hturns : turnsOf (ms ++ [⟨r, a⟩]) n = turnsOf ms n := by
    rw [turnsOf_concat, hturn]
    exact List.append_nil _
  have hbatches : batchesOf (ms ++ [⟨r, a⟩]) n = batchesOf ms n := by
    rw [batchesOf_concat, hbatch]
    exact List.append_nil _
  cases h with
  | underWay hjob hwaits hnone =>
    exact .underWay (hjobs.trans hjob) (hturns ▸ hwaits) (hbatches.trans hnone)
  | ended hjob hcourse hone =>
    exact .ended (hjobs.trans hjob) (hturns ▸ hcourse) (hbatches.trans hone)

/-- In a turn of its own it comes further, and with its last turn the pages are told. -/
theorem Comes.turn {wait : Wait} {t : Turns Wait (Registry ε) (List ViewEvent)}
    (h : Comes ms r n subscription w reason) (hturn : r.turn? n = some (subscription, wait, t)) :
    Comes (ms ++ [⟨r, .step n⟩]) (r.advance n subscription t) n subscription w reason := by
  obtain ⟨resume, hjob, -, rfl⟩ := lookup_of_turn? hturn
  cases h with
  | ended hjob' =>
    rw [hjob] at hjob'
    cases hjob'
  | underWay hjob' hwaits hnone =>
    cases hjob.symm.trans hjob'
    have hcourse := hwaits.turn r.registry
    have hturns : turnsOf (ms ++ [⟨r, .step n⟩]) n =
        turnsOf ms n ++ [⟨wait, r.registry, (resume r.registry).state⟩] := by
      rw [turnsOf_concat]
      unfold Moment.turn? Moment.after
      dsimp only
      rw [if_pos rfl, hturn]
      show _ ++ [(⟨_, _, (r.step n).registry⟩ : Turn Wait (Registry ε))] = _
      rw [step_of_turn? hturn, registry_advance]
    rw [← hturns] at hcourse
    generalize resume r.registry = t at hturn hcourse
    cases t with
    | done events s =>
      refine .ended ?_ hcourse ?_
      · exact lookup_finish _ n
      · rw [batchesOf_concat, hnone, batch?_of_done hturn]
        simp
    | pause wait' s resume' =>
      refine .underWay ?_ (.pauses hcourse) ?_
      · exact lookup_advance_pause hjob _ _ _ _
      · rw [batchesOf_concat, hnone, batch?_of_pause hturn]
        rfl

theorem Comes.perform (h : Comes ms r n subscription w reason) (hn : n < r.nextJob)
    (hcancelled : ¬r.isCancelled subscription) (a : Act ε) :
    Comes (ms ++ [⟨r, a⟩]) (r.perform a) n subscription w reason := by
  by_cases ha : a = .step n
  · subst ha
    -- it is not the job of a listener, nor is it cancelled
    have hrefresh : ∀ j, r.jobs.lookup n = some j →
        ∃ wait resume, j = .refresh subscription wait resume := by
      intro j hj
      cases h with
      | underWay hjob => exact ⟨_, _, Option.some.inj (hj.symm.trans hjob)⟩
      | ended hjob =>
        rw [hj] at hjob
        cases hjob
    have hstep := step_cases r n
    show Comes _ (r.step n) _ _ _ _
    generalize r.step n = r' at hstep
    cases hstep with
    | idle _ hturn => exact h.aside rfl (turn?_of_none hturn _) (batchesOf_of_none hturn _)
    | hears hjob =>
      obtain ⟨_, _, heq⟩ := hrefresh _ hjob
      cases heq
    | abandons _ _ hjob hcancelled' =>
      obtain ⟨_, _, heq⟩ := hrefresh _ hjob
      cases heq
      exact absurd hcancelled' hcancelled
    | goes _ hturn =>
      obtain ⟨_, hjob, -⟩ := lookup_of_turn? hturn
      obtain ⟨_, _, heq⟩ := hrefresh _ hjob
      cases heq
      exact h.turn hturn
  · exact h.aside (lookup_perform hn ha) (turn?_of_ne ha) (batchesOf_of_ne ha)

theorem lookup_concat {β : Type} {m : List (Nat × β)} {k : Nat} {v x : β}
    (h : (m ++ [(k, v)]).lookup n = some x) : m.lookup n = some x ∨ n = k ∧ v = x := by
  rw [List.lookup_append, List.lookup_cons] at h
  rcases Option.or_eq_some_iff.mp h with h | ⟨-, h⟩
  · exact Or.inl h
  · by_cases hk : n = k
    · rw [hk, beq_self_eq_true] at h
      exact Or.inr ⟨hk, Option.some.inj h⟩
    · rw [beq_eq_false_iff_ne.mpr hk] at h
      cases h

/-- A refresh has been called for as soon as it is started. -/
theorem Recorded.called_perform (h : Recorded ms r) (a : Act ε) {wait : Wait}
    {resume : Registry ε → Turns Wait (Registry ε) (List ViewEvent)}
    (hjob : (r.perform a).jobs.lookup n = some (.refresh subscription wait resume)) :
    ∃ m ∈ ms ++ [⟨r, a⟩], ∃ w reason, m.call? = some (subscription, w, reason) ∧
      m.before.nextJob = n := by
  have hold : ∀ wait resume, r.jobs.lookup n = some (.refresh subscription wait resume) →
      ∃ m ∈ ms ++ [⟨r, a⟩], ∃ w reason, m.call? = some (subscription, w, reason) ∧
        m.before.nextJob = n := fun wait resume hjob => by
    obtain ⟨m, hm, hcall⟩ := h.called n subscription wait resume hjob
    exact ⟨m, List.mem_append_left _ hm, hcall⟩
  have hjobs := perform_jobs r a
  generalize r.perform a = r' at hjobs hjob
  cases hjobs with
  | same _ hjobs =>
    rw [hjobs] at hjob
    exact hold _ _ hjob
  | listens hjobs =>
    rw [hjobs] at hjob
    rcases lookup_concat hjob with hjob | ⟨-, heq⟩
    · exact hold _ _ hjob
    · cases heq
  | @calls job _ w reason _ hcall hjobs =>
    rw [hjobs] at hjob
    rcases lookup_concat hjob with hjob | ⟨rfl, heq⟩
    · exact hold _ _ hjob
    · cases heq
      exact ⟨⟨r, .step job⟩, List.mem_append_right _ (List.mem_singleton_self _), w, reason, hcall,
        rfl⟩
  | @ends job _ _ hjobs =>
    rw [hjobs] at hjob
    have hlookup : (r.jobs.filter (·.1 ≠ job)).lookup n =
        if n = job then none else r.jobs.lookup n :=
      Keyed.lookup_erase _ _ _
    rw [hlookup] at hjob
    split at hjob
    · cases hjob
    · exact hold _ _ hjob
  | goesOn _ hthere hjobs =>
    rw [hjobs, Keyed.lookup_replace] at hjob
    split at hjob
    · next heq =>
      subst heq
      obtain ⟨_, _, hthere⟩ := hthere
      rw [hthere] at hjob
      cases hjob
      exact hold _ _ hthere
    · exact hold _ _ hjob

/-- A refresh that is called for is under way from then on. -/
theorem Recorded.comes_new (h : Recorded ms r)
    (hcall : Moment.call? ⟨r, a⟩ = some (subscription, w, reason)) :
    Comes (ms ++ [⟨r, a⟩]) (r.perform a) r.nextJob subscription w reason := by
  have hturn : r.turn? r.nextJob = none := by
    unfold turn?
    rw [h.numbered.lookup (Nat.le_refl _)]
  obtain ⟨hturns, hbatches⟩ := h.fresh r.nextJob (Nat.le_refl _)
  have hwaits : (refreshEvents r.nextJob w reason).Waits .answer (turnsOf (ms ++ [⟨r, a⟩]) r.nextJob)
      .answer (refreshEvents r.nextJob w reason) := by
    rw [turnsOf_concat, hturns, turn?_of_none hturn]
    exact .begun
  refine .underWay ?_ hwaits ?_
  · have hjobs := perform_jobs r a
    generalize r.perform a = r' at hjobs
    cases hjobs with
    | same hnone =>
      rw [hcall] at hnone
      cases hnone
    | listens => cases hcall
    | ends hnone | goesOn hnone =>
      rw [show r.call? _ = _ from hcall] at hnone
      cases hnone
    | calls hcall' hjobs =>
      cases hcall.symm.trans hcall'
      rw [hjobs, List.lookup_append, h.numbered.lookup (Nat.le_refl _), Option.none_or,
        List.lookup_cons, beq_self_eq_true]
  · rw [batchesOf_concat, hbatches, batchesOf_of_none hturn]
    rfl

omit [Engine ε] in
theorem exists_listener_of_call? {call : Nat × WalletId × RefreshReason}
    (h : Moment.call? ⟨r, a⟩ = some call) : ∃ l, r.listeners[call.1]? = some l := by
  cases a with
  | step job =>
    obtain ⟨heard, hheard, hreason⟩ := Option.bind_eq_some_iff.mp (show r.call? job = _ from h)
    obtain ⟨_, -, rfl⟩ := Option.map_eq_some_iff.mp hreason
    unfold hears? at hheard
    split at hheard
    · split at hheard
      · next l hl =>
        split at hheard
        · obtain ⟨_, -, rfl⟩ := Option.map_eq_some_iff.mp hheard
          exact ⟨l, hl⟩
        · cases hheard
      · cases hheard
    · cases hheard
  | _ => cases h

theorem nextJob_le_perform (r : Relay ε) (a : Act ε) : r.nextJob ≤ (r.perform a).nextJob := by
  have hjobs := perform_jobs r a
  generalize r.perform a = r' at hjobs
  cases hjobs with
  | same _ _ hnext => exact hnext
  | listens _ hnext | calls _ _ hnext => omega
  | ends _ _ hnext | goesOn _ _ _ hnext => omega

theorem nextJob_lt_perform {call : Nat × WalletId × RefreshReason}
    (h : Moment.call? ⟨r, a⟩ = some call) : r.nextJob < (r.perform a).nextJob := by
  have hjobs := perform_jobs r a
  generalize r.perform a = r' at hjobs
  cases hjobs with
  | same hnone =>
    rw [h] at hnone
    cases hnone
  | listens => cases h
  | ends hnone | goesOn hnone =>
    rw [show r.call? _ = _ from h] at hnone
    cases hnone
  | calls _ _ hnext => omega

theorem Recorded.perform (h : Recorded ms r) (a : Act ε) :
    Recorded (ms ++ [⟨r, a⟩]) (r.perform a) := by
  constructor
  · exact h.numbered.perform a
  · have hviews := views_perform (m := ⟨r, a⟩) h.views
    rwa [batches_concat, List.flatMap_append]
  · rw [List.map_append, List.pairwise_append]
    refine ⟨h.lasting, List.pairwise_singleton _ _, fun s hs s' hs' => ?_⟩
    obtain rfl := List.mem_singleton.mp hs'
    obtain ⟨m, hm, rfl⟩ := List.mem_map.mp hs
    exact h.lasted m hm
  · intro m hm key access haccess
    rcases List.mem_append.mp hm with hm | hm
    · exact h.lasts a key access (h.lasted m hm key access haccess)
    · obtain rfl := List.mem_singleton.mp hm
      exact h.lasts a key access haccess
  · intro m hm call hcall
    rcases List.mem_append.mp hm with hm | hm
    · obtain ⟨hn, l, hl⟩ := h.known m hm call hcall
      obtain ⟨l', hl', -⟩ := perform_listeners hl a
      exact ⟨Nat.lt_of_lt_of_le hn (nextJob_le_perform r a), l', hl'⟩
    · obtain rfl := List.mem_singleton.mp hm
      obtain ⟨l, hl⟩ := exists_listener_of_call? hcall
      obtain ⟨l', hl', -⟩ := perform_listeners hl a
      exact ⟨nextJob_lt_perform hcall, l', hl'⟩
  · intro n hn
    have hle := Nat.le_trans (nextJob_le_perform r a) hn
    obtain ⟨hturns, hbatches⟩ := h.fresh n hle
    have hturn : r.turn? n = none := by
      unfold turn?
      rw [h.numbered.lookup hle]
    rw [turnsOf_concat, batchesOf_concat, hturns, hbatches, turn?_of_none hturn,
      batchesOf_of_none hturn]
    exact ⟨rfl, rfl⟩
  · exact fun n subscription wait resume hjob => h.called_perform a hjob
  · intro b hb
    rw [batches_concat] at hb
    rcases List.mem_append.mp hb with hb | hb
    · obtain ⟨m, hm, hcall⟩ := h.told b hb
      exact ⟨m, List.mem_append_left _ hm, hcall⟩
    · obtain ⟨-, wait, resume, hjob⟩ := job_of_batch? (Option.mem_toList.mp hb)
      obtain ⟨m, hm, hcall⟩ := h.called _ _ _ _ hjob
      exact ⟨m, List.mem_append_left _ hm, hcall⟩
  · intro m hm subscription w reason hcall hcancelled
    rcases List.mem_append.mp hm with hm | hm
    · obtain ⟨hn, l, hl⟩ := h.known m hm _ hcall
      have hbefore := isCancelled_of_perform hl hcancelled
      exact (h.comes m hm subscription w reason hcall hbefore).perform hn hbefore a
    · obtain rfl := List.mem_singleton.mp hm
      exact h.comes_new hcall

/-- What every act adds to, whole histories have. -/
theorem Recorded.after (h : Recorded ms r) (acts : List (Act ε)) :
    Recorded (ms ++ r.moments acts) (r.after acts) := by
  induction acts generalizing ms r with
  | nil => rwa [moments, List.append_nil]
  | cons a acts ih =>
    rw [moments, List.append_cons]
    exact ih (h.perform a)

/-! ## One batch for every call -/

/-- What pages are told in a history, and why. -/
structure OnePerCall (ms : List (Moment ε)) (r : Relay ε) : Prop where
  /-- Whatever happens, one refresh is started if a receipt calls for one, and none if
  not. -/
  started : ∀ m ∈ ms, m.started = m.call?.toList.map fun call => (m.before.nextJob,
    .refresh call.1 .answer (refreshEvents m.before.nextJob call.2.1 call.2.2))
  /-- If its subscription is not cancelled, the refresh is under way and the pages have not
  been told yet, or it has ended and they have been told once, what it has come to. -/
  told : ∀ m ∈ ms, ∀ subscription w reason, m.call? = some (subscription, w, reason) →
    ¬r.isCancelled subscription →
    (∃ wait resume, r.jobs.lookup m.before.nextJob = some (.refresh subscription wait resume)) ∧
        batchesOf ms m.before.nextJob = [] ∨
      r.jobs.lookup m.before.nextJob = none ∧
        ∃ events, batchesOf ms m.before.nextJob = [⟨m.before.nextJob, subscription, events⟩] ∧
          Announces m.before.nextJob w reason (turnsOf ms m.before.nextJob) events
  /-- The views carry these batches one after the other. -/
  views : r.views.Carries ((batches ms).flatMap (·.events))
  /-- Nothing is told but on account of a call. -/
  nothingElse : ∀ b ∈ batches ms, ∃ m ∈ ms, ∃ w reason,
    m.call? = some (b.subscription, w, reason) ∧ m.before.nextJob = b.job

theorem map_filterMap_sublist {α β γ : Type} {f : α → Option β} {g : β → γ} {g' : α → γ}
    (h : ∀ a b, f a = some b → g b = g' a) (l : List α) :
    ((l.filterMap f).map g).Sublist (l.map g') := by
  induction l with
  | nil => exact .slnil
  | cons a l ih =>
    cases hf : f a with
    | none =>
      rw [List.filterMap_cons_none hf]
      exact ih.cons _
    | some b =>
      rw [List.filterMap_cons_some hf, List.map_cons, List.map_cons, h a b hf]
      exact ih.cons_cons _

/-- A turn finds the registry of its moment. -/
theorem found_of_turn? {τ : Turn Wait (Registry ε)} (h : m.turn? n = some τ) :
    τ.found = m.before.registry := by
  unfold Moment.turn? at h
  split at h
  · split at h
    · obtain ⟨_, -, rfl⟩ := Option.map_eq_some_iff.mp h
      rfl
    · cases h
  · cases h

/-- The turns of a refresh have found registrations that last. -/
theorem Recorded.turns_lasting (h : Recorded ms r) (n : Nat) :
    ((turnsOf ms n).map (·.found)).Pairwise Lasts :=
  h.lasting.sublist (map_filterMap_sublist (fun _ _ hτ => found_of_turn? hτ) ms)

/-- In every history pages are told once of every refresh that was called for. -/
theorem told_per_call (registry : Registry ε) (acts : List (Act ε)) :
    OnePerCall ((new registry).moments acts) ((new registry).after acts) := by
  have h := (recorded_new registry).after acts
  rw [List.nil_append] at h
  constructor
  · exact fun m hm => ((numbered_new registry).moments acts m hm).started
  · intro m hm subscription w reason hcall hcancelled
    cases h.comes m hm subscription w reason hcall hcancelled with
    | underWay hjob _ hbatches => exact Or.inl ⟨⟨_, _, hjob⟩, hbatches⟩
    | ended hjob hcourse hbatches =>
      exact Or.inr ⟨hjob, _, hbatches, announces hcourse (h.turns_lasting _)⟩
  · exact h.views
  · exact h.told

namespace Sample

/-- A Decred wallet without accounts. -/
def registry : Registry InMemoryEngine where
  config := {}
  engines := [{ asset := .dcr, blockHash := default, blockHeight := 5 }]
  registrations := [{ access := ⟨0, .dcr, .mainnet⟩ }]
  wallets := [(7, 0)]

/-- A page hears of four things, two of which call for refreshes, and these take turns. -/
def acts : List (Act InMemoryEngine) :=
  [.addSource 4, .register "page" 7 0,
    .announce 0
      [.newTransaction 7 "aa", .blockAttached 7 6, .newTransaction 8 "bb", .mixerStarted 7]] ++
  List.replicate 4 (.step 0) ++ (List.replicate 20 [.step 1, .step 2]).flatten

example : batches ((new registry).moments acts) =
    [⟨1, 0, [.accountsRefreshed 7, .transactionsChanged 7]⟩,
      ⟨2, 0, [.accountsRefreshed 7, .mixerStateChanged 7 false]⟩] := by
  cbv

end Sample

end Purse.Relay
