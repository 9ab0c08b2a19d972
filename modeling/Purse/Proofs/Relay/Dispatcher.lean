import Mathlib.Data.List.Nodup
import Purse.Proofs.Relay.Pages
import Purse.Relay.Dispatcher

/-!
# Whoever can go on has his turn

A turn of a job is a number of its steps (`poll_steps`), so all that is true of every
history is true of what a dispatcher does.

A dispatcher is `InOrder` if every job is in one of its lines, and no listener that could
go on is among those that wait. Whoever is in line to have a turn comes nearer to it with
each turn of another job (`next_nears`).
-/

namespace Purse

namespace Relay

variable {ε : Type} [Engine ε] {r : Relay ε} {i job : Nat}

/-! ## Turns are steps -/

/-- Some steps of a job. -/
def stepping (r : Relay ε) (job count : Nat) : Relay ε :=
  r.after (List.replicate count (.step job))

theorem stepping_succ (r : Relay ε) (job count : Nat) :
    r.stepping job (count + 1) = (r.step job).stepping job count := rfl

omit [Engine ε] in
/-- Only how far a refresh has come in the end is taken over. -/
theorem advance_advance (r : Relay ε) (job subscription : Nat) (wait : Wait) (s : Registry ε)
    (resume : Registry ε → Turns Wait (Registry ε) (List ViewEvent))
    (t : Turns Wait (Registry ε) (List ViewEvent)) :
    (r.advance job subscription (.pause wait s resume)).advance job subscription t =
      r.advance job subscription t := by
  cases t with
  | done events s' =>
    have hjobs := Keyed.erase_replace job (.refresh subscription wait resume) r.jobs
    exact congrArg (fun jobs => { r with registry := s', views := r.views.emit events, jobs }) hjobs
  | pause wait' s' resume' =>
    have hjobs := Keyed.replace_replace job (.refresh subscription wait resume)
      (.refresh subscription wait' resume') r.jobs
    exact congrArg (fun jobs => { r with registry := s', jobs }) hjobs

theorem isOver_of_pass {wait : Wait} {s : Registry ε} {units left : Nat}
    (h : s.pass wait units = some left) : s.isOver wait := by
  unfold Registry.pass at h
  split at h
  · next hpass =>
    simp only [Bool.and_eq_true] at hpass
    exact hpass.1.2
  · cases h

theorem isOver_of_passAnew {wait : Wait} {s : Registry ε} {units left : Nat}
    (h : s.passAnew wait units = some left) : s.isOver wait := by
  unfold Registry.passAnew at h
  split at h
  · next hturn =>
    subst hturn
    rfl
  · exact isOver_of_pass h

/-- Each pause that a turn passes is a step. -/
theorem advance_proceed {subscription : Nat} {j : Job ε} (hjob : r.jobs.lookup job = some j)
    (hcancelled : ¬r.isCancelled subscription) (t : Turns Wait (Registry ε) (List ViewEvent))
    (units : Nat) :
    ∃ count, r.advance job subscription (t.proceed Registry.pass units) =
      (r.advance job subscription t).stepping job count := by
  induction t generalizing units with
  | done events s => exact ⟨0, rfl⟩
  | pause wait s resume ih =>
    unfold Turns.proceed
    cases hpass : s.pass wait units with
    | none => exact ⟨0, rfl⟩
    | some left =>
      obtain ⟨count, heq⟩ := ih s left
      refine ⟨count + 1, ?_⟩
      dsimp only
      rw [heq, stepping_succ, step_refresh (lookup_advance_pause hjob _ _ _ _) hcancelled
        (isOver_of_pass hpass)]
      exact congrArg (·.stepping job count) (advance_advance r job subscription wait s resume _).symm

/-- The job of a listener is there until it ends. -/
theorem lookup_hear (hjob : r.jobs.lookup job = some (.listen i)) :
    (r.hear job i).jobs.lookup job = none ∨ (r.hear job i).jobs.lookup job = some (.listen i) := by
  cases hl : r.listeners[i]? with
  | none =>
    unfold hear
    rw [hl]
    exact Or.inl (lookup_finish r job)
  | some l =>
    cases hlistening : l.listening with
    | ended =>
      rw [hear_ended hl hlistening]
      exact Or.inl (lookup_finish r job)
    | leaving =>
      rw [hear_leaving hl hlistening]
      exact Or.inl (lookup_finish _ job)
    | going =>
      obtain ⟨more, hjobs⟩ := (hear_going job hl hlistening).jobs
      rw [hjobs, List.lookup_append, hjob]
      exact Or.inr rfl

/-- In a turn, a listener takes step after step until it has to wait. -/
theorem listen_cases (r : Relay ε) (job i units : Nat) (hjob : r.jobs.lookup job = some (.listen i)) :
    listen job i (units + 1) r = (.waits, r) ∧ ¬r.canStep (.listen i) ∨
      r.canStep (.listen i) ∧ listen job i (units + 1) r = listen job i units (r.step job) := by
  rw [listen, hjob]
  dsimp only
  by_cases hcan : r.canStep (.listen i)
  · rw [if_pos hcan, step_listen hjob]
    exact Or.inr ⟨hcan, rfl⟩
  · rw [if_neg hcan]
    exact Or.inl ⟨rfl, hcan⟩

theorem listen_gone (r : Relay ε) (job i units : Nat) (hjob : r.jobs.lookup job = none) :
    listen job i units r = (.ended, r) := by
  cases units with
  | zero =>
    rw [listen, hjob]
    rfl
  | succ units => rw [listen, hjob]

/-- Where a turn leaves a job. -/
structure Leaves (r : Relay ε) (job : Nat) (turn : TurnEnd × Relay ε) : Prop where
  steps : ∃ count, turn.2 = r.stepping job count
  ended : turn.1 = .ended ↔ turn.2.jobs.lookup job = none
  waits : turn.1 = .waits → ∀ i, turn.2.jobs.lookup job = some (.listen i) →
    ¬turn.2.canStep (.listen i)

theorem listen_leaves (hjob : r.jobs.lookup job = some (.listen i)) (units : Nat) :
    Leaves r job (listen job i units r) := by
  induction units generalizing r with
  | zero =>
    rw [listen, hjob]
    exact ⟨⟨0, rfl⟩, iff_of_false nofun (by rw [hjob]; exact nofun), nofun⟩
  | succ units ih =>
    rcases listen_cases r job i units hjob with ⟨heq, hcan⟩ | ⟨-, heq⟩ <;> rw [heq]
    · refine ⟨⟨0, rfl⟩, iff_of_false nofun (by rw [hjob]; exact nofun), fun _ i' hjob' => ?_⟩
      cases hjob.symm.trans hjob'
      exact hcan
    · have hafter := step_listen hjob ▸ lookup_hear hjob
      rcases hafter with hgone | hstays
      · rw [listen_gone _ _ _ _ hgone]
        exact ⟨⟨1, rfl⟩, iff_of_true rfl hgone, nofun⟩
      · obtain ⟨⟨count, hcount⟩, hended, hwaits⟩ := ih hstays
        exact ⟨⟨count + 1, hcount⟩, hended, hwaits⟩

/-- A turn of a job is a number of its steps. -/
theorem poll_leaves (r : Relay ε) (job : Nat) : Leaves r job (r.poll job) := by
  unfold poll
  cases hjob : r.jobs.lookup job with
  | none => exact ⟨⟨0, rfl⟩, iff_of_true rfl hjob, nofun⟩
  | some j =>
    cases j with
    | listen i => exact listen_leaves hjob fullTurn
    | refresh subscription wait resume =>
      dsimp only
      split
      · next hcancelled =>
        refine ⟨⟨1, ?_⟩, iff_of_true rfl (lookup_finish _ job), nofun⟩
        show _ = r.step job
        unfold step
        rw [hjob]
        dsimp only
        rw [if_pos hcancelled]
      · next hcancelled =>
        cases hpass : r.registry.passAnew wait fullTurn with
        | none =>
          refine ⟨⟨0, rfl⟩, iff_of_false nofun (by rw [hjob]; exact nofun), fun _ i h => ?_⟩
          cases hjob.symm.trans h
        | some units =>
          have hsteps : ∃ count, r.advance job subscription
              ((resume r.registry).proceed Registry.pass units) = r.stepping job count := by
            obtain ⟨count, heq⟩ := advance_proceed hjob hcancelled (resume r.registry) units
            exact ⟨count + 1, by
              rw [heq, stepping_succ, step_refresh hjob hcancelled (isOver_of_passAnew hpass)]⟩
          dsimp only
          generalize (resume r.registry).proceed Registry.pass units = t at hsteps
          cases t with
          | done events s => exact ⟨hsteps, iff_of_true rfl (lookup_finish _ job), nofun⟩
          | pause wait s resume =>
            have hlookup := lookup_advance_pause hjob subscription wait s resume
            refine ⟨hsteps, iff_of_false ?_ (by rw [hlookup]; exact nofun), fun _ i h => ?_⟩
            · cases wait <;> exact nofun
            · cases hlookup.symm.trans h

/-! ## Numbers of jobs -/

omit [Engine ε] in
/-- The numbers of the jobs under way. -/
def underWay (r : Relay ε) : List Nat :=
  r.jobs.map (·.1)

omit [Engine ε] in
theorem mem_underWay_iff {n : Nat} : n ∈ r.underWay ↔ r.jobs.lookup n ≠ none := by
  rw [ne_eq, Keyed.lookup_eq_none_iff, not_not]
  rfl

omit [Engine ε] in
theorem mem_underWay_of_lookup {n : Nat} {j : Job ε} (h : r.jobs.lookup n = some j) :
    n ∈ r.underWay := by
  rw [mem_underWay_iff, h]
  exact nofun

omit [Engine ε] in
theorem Numbered.lt (hr : r.Numbered) {n : Nat} (h : n ∈ r.underWay) : n < r.nextJob := by
  obtain ⟨j, hj, rfl⟩ := List.mem_map.mp h
  exact hr j hj

theorem distinct_perform (hr : r.Numbered) (h : r.underWay.Nodup) (a : Act ε) :
    (r.perform a).underWay.Nodup := by
  have hjobs := perform_jobs r a
  generalize r.perform a = r' at hjobs
  unfold underWay at h ⊢
  have hnew : r.nextJob ∉ r.jobs.map (·.1) := fun hmem => Nat.lt_irrefl _ (hr.lt hmem)
  cases hjobs with
  | same _ hjobs => rwa [hjobs]
  | listens hjobs | calls _ hjobs =>
    rw [hjobs, List.map_append]
    exact h.append (List.nodup_singleton _) (List.disjoint_singleton.mpr hnew)
  | ends _ hjobs =>
    rw [hjobs]
    exact h.sublist (List.filter_sublist.map _)
  | @goesOn job _ _ _ _ _ _ hjobs =>
    rw [hjobs, List.map_map]
    refine (congrArg List.Nodup (List.map_congr_left fun j _ => ?_)).mpr h
    show (if j.1 = job then _ else j).1 = j.1
    split
    · next heq => exact heq.symm
    · rfl

/-- What every history keeps, and jobs have numbers of their own. -/
structure Sound (r : Relay ε) : Prop extends Proper r where
  distinct : r.underWay.Nodup

omit [Engine ε] in
theorem sound_new (registry : Registry ε) : Sound (new registry) where
  toProper := proper_new registry
  distinct := List.nodup_nil

theorem Sound.perform (hr : r.Sound) (a : Act ε) : (r.perform a).Sound where
  toProper := hr.toProper.perform a
  distinct := distinct_perform hr.numbered hr.distinct a

theorem Sound.after (hr : r.Sound) (acts : List (Act ε)) : (r.after acts).Sound := by
  induction acts generalizing r with
  | nil => exact hr
  | cons a acts ih => exact ih (hr.perform a)

/-- Other jobs stay as they are. -/
theorem lookup_stepping {n : Nat} (hn : n < r.nextJob) (hne : n ≠ job) (count : Nat) :
    (r.stepping job count).jobs.lookup n = r.jobs.lookup n := by
  induction count generalizing r with
  | zero => rfl
  | succ count ih =>
    rw [stepping_succ]
    have hstep : (r.perform (.step job)).jobs.lookup n = r.jobs.lookup n :=
      lookup_perform hn fun h => hne (Act.step.inj h).symm
    exact (ih (Nat.lt_of_lt_of_le hn (nextJob_le_perform r (.step job)))).trans hstep

end Relay

/-! ## Lines -/

namespace Dispatcher

open Relay

variable {ε : Type} [Engine ε] {d : Dispatcher ε} {turn : Option Nat} {job i : Nat}

/-- The jobs in line. -/
def lines (d : Dispatcher ε) : List Nat :=
  d.ready ++ d.deferred ++ d.waiting

/-- Every job is in one line, but for the one that has its turn. -/
structure Lined (d : Dispatcher ε) (turn : Option Nat) : Prop where
  sound : d.relay.Sound
  once : d.lines.Nodup
  listed : ∀ n, n ∈ d.lines ↔ n ∈ d.relay.underWay ∧ turn ≠ some n
  attachedOnce : d.attached.Nodup
  attached : ∀ n ∈ d.waiting, n ∈ d.attached

/-- And no listener that could go on waits. -/
structure InOrder (d : Dispatcher ε) (turn : Option Nat) : Prop extends Lined d turn where
  resting : ∀ n ∈ d.waiting, ∀ i, d.relay.jobs.lookup n = some (.listen i) →
    ¬d.relay.canStep (.listen i)

/-! ## Waking -/

/-- The jobs that could go on. -/
def able (d : Dispatcher ε) : List Nat :=
  jobsWhere d.relay d.relay.canStep

/-- Those who wait and can go on line up, in some order, and the others wait on. -/
theorem wake_lines (h : d.Lined turn) :
    ∃ awake, awake.Perm (d.waiting.filter d.able.contains) ∧ d.wake = { d with
      ready := d.ready ++ awake
      waiting := d.waiting.filter fun n => !d.able.contains n } := by
  have hnone : d.waiting.filter d.able.contains = [] →
      ∃ awake, awake.Perm (d.waiting.filter d.able.contains) ∧ d = { d with
        ready := d.ready ++ awake
        waiting := d.waiting.filter fun n => !d.able.contains n } := by
    intro hroused
    refine ⟨[], hroused ▸ List.Perm.refl _, ?_⟩
    rw [List.append_nil, List.filter_eq_self.mpr fun n hn => ?_]
    rw [Bool.not_eq_true']
    exact Bool.eq_false_iff.mpr (List.filter_eq_nil_iff.mp hroused n hn)
  have hable : jobsWhere d.relay d.relay.canStep = d.able := rfl
  have hwaiting : (d.waiting.filter fun n => !(d.waiting.filter d.able.contains).contains n) =
      d.waiting.filter fun n => !d.able.contains n := by
    refine List.filter_congr fun n hn => congrArg (!·) ?_
    rw [Bool.eq_iff_iff, List.contains_iff_mem, List.mem_filter]
    exact and_iff_right hn
  unfold wake
  dsimp only
  rw [hable, hwaiting, List.append_assoc]
  split
  · next hempty =>
    refine hnone ?_
    rw [List.isEmpty_iff.mp hempty]
    rfl
  · split
    · next hempty => exact hnone (List.isEmpty_iff.mp hempty)
    · refine ⟨_, ?_, rfl⟩
      generalize jobsWhere d.relay (fun job => d.relay.isCancelled job.subscription) = cancelled
      generalize hroused : d.waiting.filter d.able.contains = roused
      have honce : roused.Nodup := hroused ▸ (List.nodup_append.mp h.once).2.1.filter _
      have hattached : ∀ n ∈ roused, n ∈ d.attached := fun n hn =>
        h.attached n (List.mem_filter.mp (hroused ▸ hn)).1
      -- those that end are roused, too, but in the order in which they attached
      have hending : ((d.attached.filter roused.contains).filter cancelled.contains).Perm
          (roused.filter cancelled.contains) := by
        refine (List.perm_ext_iff_of_nodup ((h.attachedOnce.filter _).filter _)
          (honce.filter _)).mpr fun n => ?_
        rw [List.mem_filter, List.mem_filter, List.mem_filter, List.contains_iff_mem]
        constructor
        · rintro ⟨⟨-, hn⟩, hc⟩
          exact ⟨hn, hc⟩
        · rintro ⟨hn, hc⟩
          exact ⟨⟨hattached n hn, hn⟩, hc⟩
      exact (hending.append_right _).trans (List.filter_append_perm _ _)

theorem mem_able_of_lookup {n : Nat} {j : Job ε} (hjob : d.relay.jobs.lookup n = some j)
    (hcan : d.relay.canStep j) : n ∈ d.able := by
  exact List.mem_map.mpr ⟨(n, j), List.mem_filter.mpr ⟨Keyed.mem_of_lookup hjob, hcan⟩, rfl⟩

/-- Waking leaves nobody behind who could go on. -/
theorem Lined.wake (h : d.Lined turn) : d.wake.InOrder turn := by
  obtain ⟨awake, hperm, heq⟩ := wake_lines h
  rw [heq]
  have hlines : (d.ready ++ awake ++ d.deferred ++
      d.waiting.filter fun n => !d.able.contains n).Perm d.lines := by
    have hsplit := (hperm.append_right _).trans (List.filter_append_perm d.able.contains d.waiting)
    unfold lines
    rw [List.append_assoc, List.append_assoc, List.append_assoc]
    refine List.Perm.append_left d.ready ?_
    rw [← List.append_assoc]
    refine (List.perm_append_comm.append_right _).trans ?_
    rw [List.append_assoc]
    exact hsplit.append_left d.deferred
  refine ⟨⟨h.sound, hlines.nodup_iff.mpr h.once, fun n => hlines.mem_iff.trans (h.listed n),
    h.attachedOnce, fun n hn => h.attached n (List.mem_filter.mp hn).1⟩, ?_⟩
  intro n hn i hjob hcan
  obtain ⟨-, hnot⟩ := List.mem_filter.mp hn
  rw [Bool.not_eq_true', Bool.eq_false_iff] at hnot
  exact hnot (List.contains_iff_mem.mpr (mem_able_of_lookup hjob hcan))

/-! ## Lining up -/

/-- The jobs of a changed relay that are new. -/
def started (d : Dispatcher ε) (relay : Relay ε) : List Nat :=
  (relay.jobs.filter fun j => d.relay.nextJob ≤ j.1).map (·.1)

omit [Engine ε] in
theorem mem_started_iff {relay : Relay ε} {n : Nat} :
    n ∈ d.started relay ↔ n ∈ relay.underWay ∧ d.relay.nextJob ≤ n := by
  unfold started underWay
  rw [List.mem_map, List.mem_map]
  constructor
  · rintro ⟨j, hj, rfl⟩
    obtain ⟨hmem, hle⟩ := List.mem_filter.mp hj
    exact ⟨⟨j, hmem, rfl⟩, of_decide_eq_true hle⟩
  · rintro ⟨⟨j, hmem, rfl⟩, hle⟩
    exact ⟨j, List.mem_filter.mpr ⟨hmem, decide_eq_true hle⟩, rfl⟩

/-- A changed relay is taken over, if others than the one that has its turn are what they
were. -/
theorem Lined.update (h : d.Lined turn) {relay : Relay ε} (hsound : relay.Sound)
    (hturn : ∀ n, turn = some n → n < d.relay.nextJob)
    (hkept : ∀ n < d.relay.nextJob, turn ≠ some n →
      (n ∈ relay.underWay ↔ n ∈ d.relay.underWay)) : (d.update relay).InOrder turn := by
  have hold : ∀ n ∈ d.lines, n < d.relay.nextJob := fun n hn =>
    h.sound.numbered.lt ((h.listed n).mp hn).1
  have hlines : ({ d with relay, ready := d.ready ++ d.started relay } : Dispatcher ε).lines.Perm
      (d.lines ++ d.started relay) := by
    unfold lines
    rw [List.append_assoc, List.append_assoc, List.append_assoc, List.append_assoc,
      ← List.append_assoc d.deferred]
    exact List.perm_append_comm.append_left d.ready
  have honce : (d.lines ++ d.started relay).Nodup := by
    refine h.once.append (hsound.distinct.sublist (List.filter_sublist.map _)) ?_
    intro n hn hstarted
    exact absurd (mem_started_iff.mp hstarted).2 (Nat.not_le_of_lt (hold n hn))
  refine Lined.wake ⟨hsound, hlines.nodup_iff.mpr honce, fun n => hlines.mem_iff.trans ?_,
    h.attachedOnce, h.attached⟩
  rw [List.mem_append, mem_started_iff]
  constructor
  · rintro (hn | ⟨hn, hle⟩)
    · obtain ⟨hunder, hnot⟩ := (h.listed n).mp hn
      exact ⟨(hkept n (hold n hn) hnot).mpr hunder, hnot⟩
    · exact ⟨hn, fun heq => absurd (hturn n heq) (Nat.not_lt_of_le hle)⟩
  · rintro ⟨hn, hnot⟩
    by_cases hlt : n < d.relay.nextJob
    · exact Or.inl ((h.listed n).mpr ⟨(hkept n hlt hnot).mp hn, hnot⟩)
    · exact Or.inr ⟨hn, Nat.le_of_not_lt hlt⟩

theorem relay_wake (d : Dispatcher ε) : d.wake.relay = d.relay := by
  unfold wake
  split
  · rfl
  · dsimp only
    split <;> rfl

theorem relay_update (d : Dispatcher ε) (relay : Relay ε) : (d.update relay).relay = relay :=
  relay_wake _

theorem ready_wake (d : Dispatcher ε) : ∃ more, d.wake.ready = d.ready ++ more := by
  unfold wake
  split
  · exact ⟨[], (List.append_nil _).symm⟩
  · dsimp only
    split
    · exact ⟨[], (List.append_nil _).symm⟩
    · exact ⟨_, List.append_assoc _ _ _⟩

/-- Nobody who is in line loses his place. -/
theorem ready_update (d : Dispatcher ε) (relay : Relay ε) :
    ∃ more, (d.update relay).ready = d.ready ++ more := by
  obtain ⟨more, heq⟩ := ready_wake { d with relay, ready := d.ready ++ d.started relay }
  exact ⟨_, heq.trans (List.append_assoc _ _ _)⟩

/-! ## Turns -/

omit [Engine ε] in
theorem attach_attached (h : d.attached.Nodup) (job : Nat) :
    ∃ attached, d.attach job = { d with attached } ∧ attached.Nodup ∧ job ∈ attached ∧
      ∀ n ∈ d.attached, n ∈ attached := by
  have hagain : ∀ attached : List Nat, attached.Nodup → job ∉ attached →
      (attached ++ [job]).Nodup := fun attached hattached hjob =>
    hattached.append (List.nodup_singleton job) (List.disjoint_singleton.mpr hjob)
  unfold attach
  split
  · refine ⟨_, rfl, hagain _ (h.erase job) h.not_mem_erase,
      List.mem_append_right _ List.mem_cons_self, fun n hn => ?_⟩
    by_cases hne : n = job
    · exact hne ▸ List.mem_append_right _ List.mem_cons_self
    · exact List.mem_append_left _ ((List.mem_erase_of_ne hne).mpr hn)
  · split
    · next hcontains => exact ⟨_, rfl, h, List.contains_iff_mem.mp hcontains, fun _ hn => hn⟩
    · next hcontains =>
      exact ⟨_, rfl, hagain _ h fun hmem => hcontains (List.contains_iff_mem.mpr hmem),
        List.mem_append_right _ List.mem_cons_self, fun n hn => List.mem_append_left _ hn⟩

theorem InOrder.not_mem_lines (h : d.InOrder (some job)) : job ∉ d.lines :=
  fun hmem => ((h.listed job).mp hmem).2 rfl

/-- With the job that had its turn all are in line who are under way. -/
theorem InOrder.all_lined (h : d.InOrder (some job)) (hthere : d.relay.jobs.lookup job ≠ none)
    {lines : List Nat} (hperm : lines.Perm (job :: d.lines)) :
    lines.Nodup ∧ ∀ n, n ∈ lines ↔ n ∈ d.relay.underWay ∧ none ≠ some n := by
  refine ⟨hperm.nodup_iff.mpr (List.nodup_cons.mpr ⟨h.not_mem_lines, h.once⟩), fun n => ?_⟩
  rw [hperm.mem_iff, List.mem_cons, h.listed]
  constructor
  · intro hn
    rcases hn with rfl | ⟨hn, -⟩
    · exact ⟨mem_underWay_iff.mpr hthere, nofun⟩
    · exact ⟨hn, nofun⟩
  · intro hn
    by_cases hne : n = job
    · exact Or.inl hne
    · exact Or.inr ⟨hn.1, fun heq => hne (Option.some.inj heq).symm⟩

/-- A job that had its turn is placed where the turn leaves it. -/
theorem InOrder.place (h : d.InOrder (some job)) {how : TurnEnd}
    (hended : how = .ended ↔ d.relay.jobs.lookup job = none)
    (hwaits : how = .waits → ∀ i, d.relay.jobs.lookup job = some (.listen i) →
      ¬d.relay.canStep (.listen i)) : (d.place job how).InOrder none := by
  cases how with
  | ended =>
    refine ⟨⟨h.sound, h.once, fun n => ?_, h.attachedOnce.erase job, fun n hn => ?_⟩, h.resting⟩
    · refine (h.listed n).trans (and_congr_right fun hn => iff_of_true ?_ nofun)
      intro heq
      cases heq
      exact mem_underWay_iff.mp hn (hended.mp rfl)
    · have hne : n ≠ job := fun heq => h.not_mem_lines (heq ▸ List.mem_append_right _ hn)
      exact (List.mem_erase_of_ne hne).mpr (h.attached n hn)
  | gaveWay =>
    obtain ⟨attached, heq, honce, hjob, hmore⟩ := attach_attached h.attachedOnce job
    have hplace : d.place job .gaveWay = { d with attached, deferred := job :: d.deferred } := by
      unfold Dispatcher.place
      dsimp only
      rw [heq]
    rw [hplace]
    have hperm : (d.ready ++ job :: d.deferred ++ d.waiting).Perm (job :: d.lines) := by
      unfold lines
      rw [List.append_assoc, List.append_assoc]
      exact List.perm_middle
    obtain ⟨hlines, hlisted⟩ := h.all_lined (fun hnone => nomatch hended.mpr hnone) hperm
    exact ⟨⟨h.sound, hlines, hlisted, honce, fun n hn => hmore n (h.attached n hn)⟩, h.resting⟩
  | waits =>
    obtain ⟨attached, heq, honce, hjob, hmore⟩ := attach_attached h.attachedOnce job
    have hplace : d.place job .waits = { d with attached, waiting := d.waiting ++ [job] } := by
      unfold Dispatcher.place
      dsimp only
      rw [heq]
    rw [hplace]
    have hperm : (d.ready ++ d.deferred ++ (d.waiting ++ [job])).Perm (job :: d.lines) := by
      unfold lines
      rw [← List.append_assoc]
      exact List.perm_append_singleton job _
    obtain ⟨hlines, hlisted⟩ := h.all_lined (fun hnone => nomatch hended.mpr hnone) hperm
    refine ⟨⟨h.sound, hlines, hlisted, honce, fun n hn => ?_⟩, fun n hn i hjob' => ?_⟩
    · rcases List.mem_append.mp hn with hn | hn
      · exact hmore n (h.attached n hn)
      · exact List.mem_singleton.mp hn ▸ hjob
    · rcases List.mem_append.mp hn with hn | hn
      · exact h.resting n hn i hjob'
      · cases List.mem_singleton.mp hn
        exact hwaits rfl i hjob'

/-- Whoever is first in line has his turn. -/
theorem next_cons {rest : List Nat} (hready : d.ready = job :: rest) :
    d.next = (({ d with ready := rest } : Dispatcher ε).update (d.relay.poll job).2).place job
      (d.relay.poll job).1 := by
  unfold next
  rw [hready]

omit [Engine ε] in
theorem relay_place (d : Dispatcher ε) (job : Nat) (how : TurnEnd) :
    (d.place job how).relay = d.relay ∧ (d.place job how).ready = d.ready := by
  have hattach : (d.attach job).relay = d.relay ∧ (d.attach job).ready = d.ready := by
    unfold attach
    split
    · exact ⟨rfl, rfl⟩
    · split <;> exact ⟨rfl, rfl⟩
  cases how with
  | ended => exact ⟨rfl, rfl⟩
  | gaveWay | waits => exact hattach

theorem InOrder.next (h : d.InOrder none) : d.next.InOrder none := by
  cases hready : d.ready with
  | nil =>
    unfold Dispatcher.next
    rw [hready]
    exact h
  | cons job rest =>
    rw [next_cons hready]
    have hleaves := poll_leaves d.relay job
    generalize d.relay.poll job = turn at hleaves
    obtain ⟨how, relay⟩ := turn
    obtain ⟨⟨count, hrelay⟩, hended, hwaits⟩ := hleaves
    dsimp only at hrelay hended hwaits ⊢
    have hlines : d.lines = job :: ({ d with ready := rest } : Dispatcher ε).lines := by
      unfold lines
      rw [hready]
      rfl
    have hout := List.nodup_cons.mp (hlines ▸ h.once)
    have hunder : job ∈ d.relay.underWay :=
      ((h.listed job).mp (hlines ▸ List.mem_cons_self)).1
    have hlined : ({ d with ready := rest } : Dispatcher ε).Lined (some job) := by
      refine ⟨h.sound, hout.2, fun n => ?_, h.attachedOnce, h.attached⟩
      have hlisted := h.listed n
      rw [hlines, List.mem_cons] at hlisted
      constructor
      · intro hn
        refine ⟨(hlisted.mp (Or.inr hn)).1, ?_⟩
        rintro heq
        cases heq
        exact hout.1 hn
      · rintro ⟨hn, hne⟩
        rcases hlisted.mpr ⟨hn, nofun⟩ with rfl | hn
        · exact absurd rfl hne
        · exact hn
    have hupdate : (({ d with ready := rest } : Dispatcher ε).update relay).InOrder (some job) := by
      refine hlined.update ?_ ?_ fun n hlt hne => ?_
      · rw [hrelay]
        exact h.sound.after _
      · rintro n heq
        cases heq
        exact h.sound.numbered.lt hunder
      · rw [mem_underWay_iff, mem_underWay_iff, hrelay,
          lookup_stepping hlt fun heq => hne (congrArg some heq.symm)]
    refine hupdate.place ?_ ?_ <;> rw [relay_update]
    · exact hended
    · exact hwaits

/-- Whoever is in line comes nearer to his turn with the turn of another. -/
theorem next_nears {rest : List Nat} (hready : d.ready = job :: rest) :
    ∃ more, d.next.ready = rest ++ more := by
  rw [next_cons hready, (relay_place _ _ _).2]
  exact ready_update _ _

theorem relay_next {rest : List Nat} (hready : d.ready = job :: rest) :
    d.next.relay = (d.relay.poll job).2 := by
  rw [next_cons hready, (relay_place _ _ _).1, relay_update]

end Dispatcher

end Purse
