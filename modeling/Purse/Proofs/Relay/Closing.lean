import Mathlib.Data.List.Perm.Subperm
import Purse.Proofs.Relay.Dispatcher
import Purse.Relay.Page

/-!
# Closing a subscription

A page that closes its subscription waits until its listener has ended, and no longer than
until every job waits. It never waits in vain: the job of a listener that is cancelled is in
line, with each turn of another job it comes nearer to its own (`next_nears`), and in its
own the listener ends (`poll_ends`).

Main statement: `names_kept`.
-/

namespace Purse

namespace Relay

variable {ε : Type} [Engine ε] {r : Relay ε} {i job : Nat} {l : Listener}

/-! ## The last turn of a listener -/

omit [Engine ε] in
theorem canStep_of_cancelled [Engine ε] (hl : r.listeners[i]? = some l) (hc : l.cancelled) :
    r.canStep (.listen i) := by
  unfold canStep
  dsimp only
  rw [hl]
  dsimp only
  rw [hc, Bool.or_true, Bool.true_or]

theorem hear_cancelled (hl : r.listeners[i]? = some l) (hc : l.cancelled)
    (hgoing : l.listening = .going) : r.hear job i = r.detach i l := by
  unfold hear
  rw [hl]
  dsimp only
  rw [hgoing]
  dsimp only
  rw [if_pos hc]

/-- A listener that is cancelled ends in its next turn. -/
theorem poll_ends (hjob : r.jobs.lookup job = some (.listen i)) (hl : r.listeners[i]? = some l)
    (hc : l.cancelled) (hgoing : l.listening ≠ .ended) : (r.poll job).2.Ended i := by
  -- if it has left its source, its next step is the last one
  have hlast : ∀ {r : Relay ε} {l : Listener} (units : Nat), r.jobs.lookup job = some (.listen i) →
      r.listeners[i]? = some l → l.cancelled → l.listening = .leaving →
      (listen job i (units + 1) r).2.Ended i := by
    intro r l units hjob hl hc hleaving
    rcases listen_cases r job i units hjob with ⟨-, hcan⟩ | ⟨-, heq⟩
    · exact absurd (canStep_of_cancelled hl hc) hcan
    · have hstep : r.step job = r.stop job i := (step_listen hjob).trans (hear_leaving hl hleaving)
      rw [heq, hstep, listen_gone (r.stop job i) job i units (lookup_finish _ job)]
      exact ⟨_, getElem?_stop hl, rfl⟩
  unfold poll
  rw [hjob]
  dsimp only
  cases hlistening : l.listening with
  | ended => exact absurd hlistening hgoing
  | leaving => exact hlast 127 hjob hl hc hlistening
  | going =>
    rcases listen_cases r job i 127 hjob with ⟨-, hcan⟩ | ⟨-, heq⟩
    · exact absurd (canStep_of_cancelled hl hc) hcan
    · have hstep : r.step job = r.detach i l :=
        (step_listen hjob).trans (hear_cancelled hl hc hlistening)
      show (listen job i (127 + 1) r).2.Ended i
      rw [heq, hstep]
      have hleft := getElem?_modifyListener_self hl fun l => { l with listening := .leaving }
      exact hlast 126 (l := { l with listening := .leaving }) hjob hleft hc rfl

/-- Whoever is cancelled stays so. -/
theorem cancelled_after (hl : r.listeners[i]? = some l) (acts : List (Act ε)) :
    ∃ l', (r.after (.cancel i :: acts)).listeners[i]? = some l' ∧ l.Later l' ∧ l'.cancelled := by
  obtain ⟨l₁, hl₁, hlater₁, -⟩ := perform_listeners hl (.cancel i)
  obtain ⟨l₂, hl₂, hlater₂⟩ := later_after hl₁ acts
  refine ⟨l₂, hl₂, hlater₁.trans hlater₂, hlater₂.cancelled ?_⟩
  have hcancel : (r.cancel i).listeners[i]? = some { l with cancelled := true } :=
    getElem?_modifyListener_self hl fun l => { l with cancelled := true }
  cases hl₁.symm.trans hcancel
  rfl

end Relay

namespace Dispatcher

open Relay

variable {ε : Type} [Engine ε] {d d' : Dispatcher ε} {i job n : Nat}

/-! ## Letting jobs have their turns -/

/-- Jobs have had turns, and all is in order. -/
structure Went (d d' : Dispatcher ε) : Prop where
  inOrder : d'.InOrder none
  steps : ∃ jobs : List Nat, d'.relay = d.relay.after (jobs.map .step)

theorem Went.refl (h : d.InOrder none) : d.Went d := ⟨h, [], rfl⟩

theorem Went.trans {d'' : Dispatcher ε} (h : d.Went d') (h' : d'.Went d'') : d.Went d'' := by
  obtain ⟨jobs, hjobs⟩ := h.steps
  obtain ⟨jobs', hjobs'⟩ := h'.steps
  refine ⟨h'.inOrder, jobs ++ jobs', ?_⟩
  rw [hjobs', hjobs, List.map_append, after_append]

theorem went_next (h : d.InOrder none) : d.Went d.next := by
  refine ⟨h.next, ?_⟩
  cases hready : d.ready with
  | nil =>
    refine ⟨[], ?_⟩
    unfold Dispatcher.next
    rw [hready]
    rfl
  | cons job rest =>
    obtain ⟨count, hcount⟩ := (poll_leaves d.relay job).steps
    refine ⟨List.replicate count job, ?_⟩
    rw [relay_next hready, hcount, List.map_replicate]
    rfl

theorem went_repeat (h : d.InOrder none) (count : Nat) : d.Went (Nat.repeat Dispatcher.next count d) := by
  induction count with
  | zero => exact .refl h
  | succ count ih => exact ih.trans (went_next ih.inOrder)

/-- Those who gave way line up again. -/
theorem InOrder.lineUp (h : d.InOrder none) :
    InOrder { d with ready := d.ready ++ d.deferred, deferred := [] } none := by
  have hlines : Dispatcher.lines { d with ready := d.ready ++ d.deferred, deferred := [] } =
      d.lines := by
    unfold lines
    rw [List.append_nil]
  exact ⟨⟨h.sound, hlines ▸ h.once, fun n => hlines ▸ h.listed n, h.attachedOnce, h.attached⟩,
    h.resting⟩

theorem went_round (h : d.InOrder none) : d.Went d.round :=
  have hturns := went_repeat h batch
  ⟨hturns.inOrder.lineUp, hturns.steps⟩

theorem went_runUntil (h : d.InOrder none) (enough : Relay ε → Bool) (fuel : Nat) :
    d.Went (runUntil enough fuel d) := by
  induction fuel generalizing d with
  | zero => exact .refl h
  | succ fuel ih =>
    unfold runUntil
    split
    · exact .refl h
    · exact (went_round h).trans (ih (went_round h).inOrder)

theorem InOrder.units {turn : Option Nat} (h : d.InOrder turn) (units : Nat) :
    InOrder { d with units } turn :=
  ⟨⟨h.sound, h.once, h.listed, h.attachedOnce, h.attached⟩, h.resting⟩

theorem went_waitFor (h : d.InOrder none) (enough : Relay ε → Bool) : d.Went (d.waitFor enough) :=
  have hround := went_round h
  have hrun := hround.trans (went_runUntil hround.inOrder enough (budget d.round.relay))
  ⟨hrun.inOrder.units fullTurn, hrun.steps⟩

theorem went_ensureUnit (h : d.InOrder none) : d.Went d.ensureUnit := by
  unfold ensureUnit
  split
  · exact went_waitFor h _
  · exact .refl h

theorem went_look (h : d.InOrder none) : d.Went d.look :=
  have hensure := went_ensureUnit h
  ⟨hensure.inOrder.units _, hensure.steps⟩

/-- Whatever else happens to the relay, all stays in order. -/
theorem InOrder.change (h : d.InOrder none) {a : Act ε} (ha : ∀ job, a ≠ .step job) :
    (d.change (·.perform a)).InOrder none := by
  refine h.toLined.update (h.sound.perform a) nofun fun n hlt _ => ?_
  rw [mem_underWay_iff, mem_underWay_iff, lookup_perform hlt (ha n)]

/-! ## Coming nearer -/

/-- A listener that is cancelled is in line, with at most so many before it. -/
structure Nears (d : Dispatcher ε) (i job n : Nat) : Prop where
  line : ∃ before after, d.ready = before ++ job :: after ∧ before.length ≤ n
  job : d.relay.jobs.lookup job = some (.listen i)
  listener : ∃ l, d.relay.listeners[i]? = some l ∧ l.cancelled

theorem Nears.next (hd : d.InOrder none) (h : d.Nears i job n) :
    d.next.relay.Ended i ∨ ∃ m < n, d.next.Nears i job m := by
  obtain ⟨⟨before, after, hready, hle⟩, hjob, l, hl, hc⟩ := h
  cases before with
  | nil =>
    left
    rw [relay_next hready]
    by_cases hended : l.listening = .ended
    · obtain ⟨count, hcount⟩ := (poll_leaves d.relay job).steps
      rw [hcount]
      exact Ended.after ⟨l, hl, hended⟩ _
    · exact poll_ends hjob hl hc hended
  | cons other before =>
    right
    have hready : d.ready = other :: (before ++ job :: after) := hready
    obtain ⟨more, hmore⟩ := next_nears hready
    obtain ⟨count, hcount⟩ := (poll_leaves d.relay other).steps
    have hne : job ≠ other := by
      rintro rfl
      have honce := (List.nodup_append.mp (List.nodup_append.mp hd.once).1).1
      rw [hready] at honce
      exact (List.nodup_cons.mp honce).1 (List.mem_append_right _ List.mem_cons_self)
    obtain ⟨l', hl', hlater⟩ := later_after hl (List.replicate count (.step other))
    refine ⟨before.length, hle, ⟨before, after ++ more, ?_, Nat.le_refl _⟩, ?_, l', ?_,
      hlater.cancelled hc⟩
    · rw [hmore, List.append_assoc]
      rfl
    · rw [relay_next hready, hcount,
        lookup_stepping (hd.sound.numbered.lt_of_lookup hjob) hne, hjob]
    · rw [relay_next hready, hcount]
      exact hl'

theorem Nears.round (hd : d.InOrder none) (h : d.Nears i job n) :
    d.round.relay.Ended i ∨ ∃ m < n, d.round.Nears i job m := by
  have hturns : ∀ count, (Nat.repeat Dispatcher.next count d).relay.Ended i ∨
      ∃ m, m + count ≤ n ∧ (Nat.repeat Dispatcher.next count d).Nears i job m := by
    intro count
    induction count with
    | zero => exact Or.inr ⟨n, Nat.le_refl n, h⟩
    | succ count ih =>
      have hin := (went_repeat hd count).inOrder
      rcases ih with hended | ⟨m, hm, hnears⟩
      · obtain ⟨jobs, hjobs⟩ := (went_next hin).steps
        left
        show (Nat.repeat Dispatcher.next count d).next.relay.Ended i
        rw [hjobs]
        exact hended.after _
      · rcases hnears.next hin with hended | ⟨m', hm', hnears'⟩
        · exact Or.inl hended
        · exact Or.inr ⟨m', by omega, hnears'⟩
  rcases hturns batch with hended | ⟨m, hm, ⟨before, after, hready, hle⟩, hjob, hlistener⟩
  · exact Or.inl hended
  · have hready' : d.round.ready =
        before ++ job :: (after ++ (Nat.repeat Dispatcher.next batch d).deferred) := by
      show (Nat.repeat Dispatcher.next batch d).ready ++ _ = _
      rw [hready, List.append_assoc]
      rfl
    have hbatch : batch = 61 := rfl
    exact Or.inr ⟨m, by omega, ⟨before, _, hready', hle⟩, hjob, hlistener⟩

/-- Whoever is not too far back in line ends while it is waited for. -/
theorem Nears.runUntil (hd : d.InOrder none) (h : d.Nears i job n) {fuel : Nat} (hn : n < fuel) :
    (Dispatcher.runUntil (fun r => !r.isListening i) fuel d).relay.Ended i := by
  induction fuel generalizing d n with
  | zero => exact absurd hn (Nat.not_lt_zero n)
  | succ fuel ih =>
    unfold Dispatcher.runUntil
    split
    · next henough =>
      obtain ⟨l, hl, -⟩ := h.listener
      rcases Bool.or_eq_true_iff.mp henough with hended | hidle
      · unfold isListening at hended
        rw [hl] at hended
        refine ⟨l, hl, ?_⟩
        simpa using hended
      · -- whoever has somebody in line does not rest
        obtain ⟨before, after, hready, -⟩ := h.line
        unfold isIdle at hidle
        rw [hready] at hidle
        simp at hidle
    · have hround := went_round hd
      rcases h.round hd with hended | ⟨m, hm, hnears⟩
      · obtain ⟨jobs, hjobs⟩ := (went_runUntil hround.inOrder (fun r => !r.isListening i) fuel).steps
        rw [hjobs]
        exact hended.after _
      · exact ih hround.inOrder hnears (by omega)

/-! ## Waiting long enough -/

theorem le_foldr_add (ns : List Nat) (c : Nat) : c ≤ ns.foldr (· + ·) c := by
  induction ns with
  | nil => exact Nat.le_refl c
  | cons n ns ih => exact Nat.le_trans ih (Nat.le_add_left _ n)

theorem length_add_le_foldr {ns : List Nat} (h : ∀ n ∈ ns, 0 < n) (c : Nat) :
    ns.length + c ≤ ns.foldr (· + ·) c := by
  induction ns with
  | nil => exact Nat.le_of_eq (Nat.zero_add c)
  | cons n ns ih =>
    have hpos := h n List.mem_cons_self
    have hrest := ih fun m hm => h m (List.mem_cons_of_mem _ hm)
    rw [List.length_cons, List.foldr_cons]
    omega

/-- There are as many turns to wait for as there are jobs, and more. -/
theorem length_lt_budget (r : Relay ε) : r.jobs.length < budget r := by
  unfold budget
  dsimp only
  rw [List.foldr_append]
  generalize List.map (fun l => _) r.listeners = toCome
  have htoCome := le_foldr_add toCome 1
  refine Nat.lt_of_lt_of_le ?_ (length_add_le_foldr ?_ _)
  · rw [List.length_map]
    omega
  · intro n hn
    obtain ⟨⟨_, j⟩, -, rfl⟩ := List.mem_map.mp hn
    cases j with
    | listen => exact Nat.succ_pos 3
    | refresh => exact Nat.succ_pos _

theorem mem_ready_or_deferred (h : d.InOrder none) {l : Listener}
    (hjob : d.relay.jobs.lookup job = some (.listen i)) (hl : d.relay.listeners[i]? = some l)
    (hc : l.cancelled) : job ∈ d.ready ++ d.deferred := by
  have hlisted := (h.listed job).mpr ⟨mem_underWay_of_lookup hjob, nofun⟩
  rcases List.mem_append.mp hlisted with hline | hwaiting
  · exact hline
  · exact absurd (canStep_of_cancelled hl hc) (h.resting job hwaiting i hjob)

/-- To wait for the end of a listener that is cancelled is to wait long enough. -/
theorem waitFor_ends (h : d.InOrder none) {l : Listener} (hl : d.relay.listeners[i]? = some l)
    (hc : l.cancelled) : (d.waitFor fun r => !r.isListening i).relay.Ended i := by
  have hround := went_round h
  obtain ⟨jobs, hjobs⟩ := hround.steps
  obtain ⟨l', hl', hlater⟩ := later_after hl (jobs.map .step)
  rw [← hjobs] at hl'
  show (runUntil _ (budget d.round.relay) d.round).relay.Ended i
  by_cases hended : l'.listening = .ended
  · obtain ⟨jobs', hjobs'⟩ := (went_runUntil hround.inOrder (fun r => !r.isListening i)
      (budget d.round.relay)).steps
    rw [hjobs']
    exact Ended.after ⟨l', hl', hended⟩ _
  · obtain ⟨job, hjob⟩ := hround.inOrder.sound.paged.attended i l' hl' hended
    have hline : job ∈ d.round.ready ++ [] :=
      mem_ready_or_deferred hround.inOrder hjob hl' (hlater.cancelled hc)
    rw [List.append_nil] at hline
    obtain ⟨before, after, hready⟩ := List.append_of_mem hline
    have hnears : d.round.Nears i job before.length :=
      ⟨⟨before, after, hready, Nat.le_refl _⟩, hjob, l', hl', hlater.cancelled hc⟩
    refine hnears.runUntil hround.inOrder ?_
    -- nobody is in line twice, so the line is no longer than there are jobs
    have honce : d.round.ready.Nodup :=
      (List.nodup_append.mp (List.nodup_append.mp hround.inOrder.once).1).1
    have hsub : d.round.ready ⊆ d.round.relay.underWay := fun n hn =>
      ((hround.inOrder.listed n).mp (List.mem_append_left _ (List.mem_append_left _ hn))).1
    have hlength := (List.subperm_of_subset honce hsub).length_le
    have hbudget := length_lt_budget d.round.relay
    unfold underWay at hlength
    rw [hready, List.length_append, List.length_cons, List.length_map] at hlength
    omega

/-! ## Closing -/

/-- What comes of closing a subscription. -/
structure Closed (d d' : Dispatcher ε) (i : Nat) (l : Listener) : Prop where
  /-- It is cancelled and gives up its name, and jobs have their turns besides. -/
  acts : ∃ jobs jobs' : List Nat,
    d'.relay = d.relay.after (.cancel i :: jobs.map .step ++ .release i :: jobs'.map .step)
  /-- Its listener has ended. -/
  ended : d'.relay.Ended i
  /-- It has no name any more, whatever happens next. -/
  freed : ∀ acts page, (page, i) ∉ (d'.relay.after acts).pages
  /-- Its source knows it no more. -/
  detached : ∀ acts, (d'.relay.after acts).Detached l

/-- Whoever goes on once a listener that is cancelled has ended does go on. -/
theorem went_await (h : d.InOrder none) {l : Listener} (hl : d.relay.listeners[i]? = some l)
    (hc : l.cancelled) :
    let d' := (if !d.relay.isListening i then d else d.waitFor fun r => !r.isListening i).look
    d.Went d' ∧ d'.relay.Ended i := by
  have hawait : ∀ d' : Dispatcher ε, d.Went d' → d'.relay.Ended i →
      d.Went d'.look ∧ d'.look.relay.Ended i := by
    intro d' hwent hended
    have hlook := went_look hwent.inOrder
    obtain ⟨jobs, hjobs⟩ := hlook.steps
    refine ⟨hwent.trans hlook, ?_⟩
    rw [hjobs]
    exact hended.after _
  dsimp only
  split
  · next henough =>
    refine hawait d (.refl h) ⟨l, hl, ?_⟩
    unfold isListening at henough
    rw [hl] at henough
    simpa using henough
  · exact hawait _ (went_waitFor h _) (waitFor_ends h hl hc)

theorem Went.of_change {a : Act ε} (h : (d.change (·.perform a)).Went d') :
    ∃ jobs : List Nat, d'.relay = d.relay.after (a :: jobs.map .step) := by
  obtain ⟨jobs, hjobs⟩ := h.steps
  refine ⟨jobs, hjobs.trans ?_⟩
  rw [show (d.change (·.perform a)).relay = d.relay.perform a from relay_update _ _]
  rfl

theorem InOrder.close (h : d.InOrder none) {l : Listener} (hl : d.relay.listeners[i]? = some l) :
    (d.close i).InOrder none ∧ d.Closed (d.close i) i l := by
  have hcancel := went_look (h.change (a := .cancel i) nofun)
  obtain ⟨jobs, hjobs⟩ := hcancel.of_change
  have hrelease := went_ensureUnit (hcancel.inOrder.change (a := .release i) nofun)
  obtain ⟨jobs₁, hjobs₁⟩ := hrelease.of_change
  rw [hjobs, ← after_append] at hjobs₁
  -- who is cancelled stays so while his name is freed
  obtain ⟨l₁, hl₁, hlater₁, hc₁⟩ := cancelled_after hl (jobs.map .step ++ .release i :: jobs₁.map .step)
  have hl₁' := (congrArg (·.listeners[i]?) hjobs₁).trans hl₁
  have hawait := went_await hrelease.inOrder hl₁' hc₁
  obtain ⟨jobs', hjobs'⟩ := (hrelease.trans hawait.1).of_change
  rw [hjobs, ← after_append] at hjobs'
  have hended := hawait.2
  have hsound := hawait.1.inOrder.sound
  obtain ⟨l', hl', hlater⟩ := later_after hl
    (.cancel i :: (jobs.map .step ++ .release i :: jobs'.map .step))
  have hl' := (congrArg (·.listeners[i]?) hjobs').trans hl'
  refine ⟨hawait.1.inOrder, ⟨jobs, jobs', hjobs'⟩, hended, fun acts page => ?_, fun acts => ?_⟩
  · obtain ⟨l'', hl'', hended⟩ := hended
    exact (hsound.toProper.of_ended hl'' hended acts).1 page
  · obtain ⟨l'', hl'', hended⟩ := hended
    cases hl''.symm.trans hl'
    have hdetached := (hsound.toProper.of_ended hl'' hended acts).2
    unfold Detached at hdetached ⊢
    rwa [hlater.source, hlater.receiver] at hdetached

/-! ## What may become of a dispatcher -/

/-- A dispatcher that has begun with a registry: jobs have their turns, and anything may
happen to the relay between them. -/
inductive Reached (registry : Registry ε) : Dispatcher ε → Prop
  | new : Reached registry { relay := .new registry }
  | change {d : Dispatcher ε} {a : Act ε} (h : Reached registry d) (ha : ∀ job, a ≠ .step job) :
      Reached registry (d.change (·.perform a))
  | takeTickets {d : Dispatcher ε} (h : Reached registry d) (count : Nat) :
      Reached registry (d.takeTickets count).2
  | next {d : Dispatcher ε} (h : Reached registry d) : Reached registry d.next
  | lineUp {d : Dispatcher ε} (h : Reached registry d) :
      Reached registry { d with ready := d.ready ++ d.deferred, deferred := [] }
  | units {d : Dispatcher ε} (h : Reached registry d) (units : Nat) :
      Reached registry { d with units }

namespace Reached

variable {registry : Registry ε}

/-- All is in order, and what has become of the relay is a history of it. -/
theorem inOrder (h : Reached registry d) :
    d.InOrder none ∧ ∃ acts, d.relay = (Relay.new registry).after acts := by
  have hmore : ∀ {r r' : Relay ε} (acts : List (Act ε)), r' = r.after acts →
      (∃ acts', r = (Relay.new registry).after acts') →
      ∃ acts', r' = (Relay.new registry).after acts' := by
    rintro r r' acts rfl ⟨acts', rfl⟩
    exact ⟨acts' ++ acts, (after_append _ _ _).symm⟩
  induction h with
  | new =>
    refine ⟨⟨⟨sound_new registry, List.nodup_nil, fun n => ?_, List.nodup_nil, nofun⟩, nofun⟩, [], rfl⟩
    exact iff_of_false List.not_mem_nil fun h => List.not_mem_nil h.1
  | @change d a _ ha ih => exact ⟨ih.1.change ha, hmore [a] (relay_update _ _) ih.2⟩
  | @takeTickets d _ count ih =>
    obtain ⟨hin, hacts⟩ := ih
    refine ⟨⟨⟨?_, hin.once, hin.listed, hin.attachedOnce, hin.attached⟩, hin.resting⟩, ?_⟩
    · exact hin.sound.perform (.takeTickets count)
    · exact hmore [.takeTickets count] rfl hacts
  | next _ ih =>
    obtain ⟨jobs, hjobs⟩ := (went_next ih.1).steps
    exact ⟨ih.1.next, hmore _ hjobs ih.2⟩
  | lineUp _ ih => exact ⟨ih.1.lineUp, ih.2⟩
  | units _ units ih => exact ⟨ih.1.units units, ih.2⟩

theorem round (h : Reached registry d) : Reached registry d.round := by
  have hturns : ∀ count, Reached registry (Nat.repeat Dispatcher.next count d) := fun count => by
    induction count with
    | zero => exact h
    | succ count ih => exact ih.next
  exact (hturns batch).lineUp

theorem runUntil (h : Reached registry d) (enough : Relay ε → Bool) (fuel : Nat) :
    Reached registry (runUntil enough fuel d) := by
  induction fuel generalizing d with
  | zero => exact h
  | succ fuel ih =>
    unfold Dispatcher.runUntil
    split
    · exact h
    · exact ih h.round

theorem settle (h : Reached registry d) : Reached registry d.settle :=
  (h.runUntil _ _).units _

theorem waitFor (h : Reached registry d) (enough : Relay ε → Bool) :
    Reached registry (d.waitFor enough) :=
  (h.round.runUntil enough _).units _

theorem ensureUnit (h : Reached registry d) : Reached registry d.ensureUnit := by
  unfold Dispatcher.ensureUnit
  split
  · exact h.waitFor _
  · exact h

theorem look (h : Reached registry d) : Reached registry d.look :=
  h.ensureUnit.units _

theorem register (h : Reached registry d) (page : String) (w : WalletId) (source : Nat) :
    Reached registry (d.register page w source).2 :=
  h.look.change (a := .register page w source) nofun

theorem deregister (h : Reached registry d) (page : String) :
    Reached registry (d.deregister page).2 :=
  h.look.change (a := .deregister page) nofun

theorem close (h : Reached registry d) (i : Nat) : Reached registry (d.close i) := by
  have hfreed : Reached registry ((d.change (·.cancel i)).look.change (·.release i)).ensureUnit :=
    ((h.change (a := .cancel i) nofun).look.change (a := .release i) nofun).ensureUnit
  unfold Dispatcher.close
  dsimp only
  split
  · exact hfreed.look
  · exact (hfreed.waitFor _).look

end Reached

/-- Names are taken and freed by those alone whose they are, whatever pages do and in
whatever order jobs have their turns, and a subscription that is closed has ended. -/
theorem names_kept (registry : Registry ε) :
    (∀ acts, NamesKept ((Relay.new registry).after acts)) ∧
    ∀ d, Reached registry d → NamesKept d.relay ∧
      ∀ (i : Nat) (l : Listener), d.relay.listeners[i]? = some l → d.Closed (d.close i) i l := by
  have hkept : ∀ acts, NamesKept ((Relay.new registry).after acts) := fun acts =>
    ((proper_new registry).after acts).namesKept
  refine ⟨hkept, fun d hd => ?_⟩
  obtain ⟨hin, acts, heq⟩ := hd.inOrder
  exact ⟨heq ▸ hkept acts, fun i l hl => (hin.close hl).2⟩

namespace Sample

open Relay.Sample

/-- A page has subscribed to a source. -/
def opened : Dispatcher InMemoryEngine :=
  ((Dispatcher.change { relay := .new empty } (·.perform (.addSource 1))).register "page" 7 0).2

theorem reached_opened : Reached empty opened :=
  (Reached.new.change (a := .addSource 1) nofun).register "page" 7 0

end Sample

open Sample Relay.Sample in
/-- A page that closes its subscription has its name free for another one. The first one
cannot free it any more, however late it is given up. -/
theorem names_kept_reopened :
    opened.Closed (opened.close 0) 0 listener ∧
      ((opened.close 0).relay.register "page" 7 0).1 = some 1 ∧
      ("page", 1) ∈ (((opened.close 0).relay.register "page" 7 0).2.after
        [.unsubscribe 0, .release 0]).pages := by
  have hclosed := ((names_kept empty).2 opened reached_opened).2 0 listener
    (by decide +kernel)
  exact ⟨hclosed, by decide +kernel, by decide +kernel⟩

end Dispatcher

end Purse
