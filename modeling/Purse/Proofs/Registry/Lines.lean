import Purse.Proofs.Registry.Company
import Purse.Proofs.Registry.Sound

/-!
# Lines of refreshes

What every act of a company keeps (`Kept`): what is left of a refresh is a course of it,
tickets tell the refreshes under way apart, and the line of a registration is made of
those that lined up for it and are still under way, with the one that has the lock in
front.

`Queued` says the latter of any lines, and what happens to them: somebody goes to the
end, takes the lock, or leaves. A turn of a refresh is one of these (`Kept.take`), and
so is giving one up (`Kept.giveUp`).
-/

namespace Purse.Company

variable {ε : Type}

/-! ## Lines with a lock at their head -/

/-- Lines by number, with who queues in them under which ticket, and who has the lock. -/
structure Queued (line : Nat → List Nat) (queues : Nat → Nat → Nat → Prop) (locked : Nat → Prop) :
    Prop where
  mem : ∀ key t, t ∈ line key ↔ ∃ i, queues key i t
  nodup : ∀ key, (line key).Nodup
  first : ∀ key i t, queues key i t → locked i → (line key).head? = some t

namespace Queued

variable {line : Nat → List Nat} {queues queues' : Nat → Nat → Nat → Prop}
  {locked locked' : Nat → Prop} {i ticket : Nat}

theorem congr (h : Queued line queues locked) (hq : ∀ key j t, queues' key j t ↔ queues key j t)
    (hl : ∀ key j t, queues' key j t → (locked' j → locked j)) : Queued line queues' locked' where
  mem key t := (h.mem key t).trans (exists_congr fun j => (hq key j t).symm)
  nodup := h.nodup
  first key j t hqueues hlocked :=
    h.first key j t ((hq key j t).mp hqueues) (hl key j t hqueues hlocked)

/-- Somebody new goes to the end of a line. -/
theorem lineUp (h : Queued line queues locked) (key : Nat) (hnew : ∀ k j, ¬queues k j ticket)
    (hl : ¬locked i) :
    Queued (fun k => if k = key then line key ++ [ticket] else line k)
      (fun k j t => queues k j t ∨ k = key ∧ j = i ∧ t = ticket) locked where
  mem k t := by
    by_cases hk : k = key
    · subst hk
      simp only [if_true, List.mem_append, List.mem_singleton, h.mem, true_and]
      constructor
      · rintro (⟨j, hj⟩ | rfl)
        · exact ⟨j, Or.inl hj⟩
        · exact ⟨i, Or.inr ⟨rfl, rfl⟩⟩
      · rintro ⟨j, hj | ⟨-, rfl⟩⟩
        · exact Or.inl ⟨j, hj⟩
        · exact Or.inr rfl
    · rw [if_neg hk, h.mem]
      simp only [hk, false_and, or_false]
  nodup k := by
    by_cases hk : k = key
    · subst hk
      rw [if_pos rfl, List.nodup_append]
      refine ⟨h.nodup k, by simp, fun t ht t' ht' heq => ?_⟩
      obtain rfl := List.mem_singleton.mp ht'
      obtain ⟨j, hj⟩ := (h.mem k t).mp ht
      exact hnew k j (heq ▸ hj)
    · rw [if_neg hk]
      exact h.nodup k
  first k j t hqueues hlocked := by
    rcases hqueues with hqueues | ⟨-, rfl, -⟩
    · have hhead := h.first k j t hqueues hlocked
      by_cases hk : k = key
      · subst hk
        rw [if_pos rfl, List.head?_append, hhead]
        rfl
      · rw [if_neg hk]
        exact hhead
    · exact absurd hlocked hl

/-- Somebody takes the lock who is first wherever he queues. -/
theorem lock (h : Queued line queues locked)
    (hfirst : ∀ key t, queues key i t → (line key).head? = some t) :
    Queued line queues fun j => locked j ∨ j = i where
  mem := h.mem
  nodup := h.nodup
  first key j t hqueues hlocked := by
    rcases hlocked with hlocked | rfl
    · exact h.first key j t hqueues hlocked
    · exact hfirst key t hqueues

/-- Somebody leaves whose ticket nobody else has. -/
theorem leave (h : Queued line queues locked)
    (hticket : ∀ key j t, queues key j t → (t = ticket ↔ j = i)) :
    Queued (fun k => (line k).filter (· ≠ ticket)) (fun k j t => queues k j t ∧ j ≠ i) locked where
  mem key t := by
    simp only [List.mem_filter, h.mem, decide_eq_true_eq]
    constructor
    · rintro ⟨⟨j, hj⟩, ht⟩
      exact ⟨j, hj, fun hji => ht ((hticket key j t hj).mpr hji)⟩
    · rintro ⟨j, hj, hji⟩
      exact ⟨⟨j, hj⟩, fun ht => hji ((hticket key j t hj).mp ht)⟩
  nodup key := (h.nodup key).filter _
  first key j t hqueues hlocked := by
    have hhead := h.first key j t hqueues.1 hlocked
    have ht : t ≠ ticket := fun ht => hqueues.2 ((hticket key j t hqueues.1).mp ht)
    cases hline : line key with
    | nil =>
      rw [hline] at hhead
      cases hhead
    | cons t' rest =>
      rw [hline] at hhead
      cases hhead
      rw [List.filter_cons_of_pos (by simpa using ht)]
      rfl

end Queued

/-! ## What every act keeps -/

variable [Engine ε]

/-- How far a refresh has come after its turns. -/
inductive Tracks (ticket : Nat) (w : WalletId) (ts : List (Turn Wait (Registry ε))) :
    Progress ε → Prop
  | waits {wait : Wait} {resume : Registry ε → Turns Wait (Registry ε) (Outcome Accounts)}
      (h : (Registry.refresh ticket w).run.Waits .answer ts wait resume) :
      Tracks ticket w ts (.waits wait resume)
  | ended {s : Registry ε} {outcome : Outcome Accounts}
      (h : (Registry.refresh ticket w).run.Course ts (.done outcome s)) :
      Tracks ticket w ts (.ended outcome)
  | abandoned : Tracks ticket w ts .abandoned

theorem Tracks.after {ticket : Nat} {w : WalletId} {ts : List (Turn Wait (Registry ε))}
    {t : Turns Wait (Registry ε) (Outcome Accounts)}
    (h : (Registry.refresh ticket w).run.Course ts t) : Tracks ticket w ts (.after t) := by
  cases t with
  | done outcome s => exact .ended h
  | pause wait s resume => exact .waits (.pauses h)

/-- The refresh is in the line of the registration under the ticket. -/
def Queues (c : Company ε) (key i ticket : Nat) : Prop :=
  ∃ f r, c.refreshes[i]? = some f ∧ f.isUnderWay ∧ f.ticket = ticket ∧ 3 ≤ (c.turnsOf i).length ∧
    Registry.FoundAs f.wallet key r (c.turnsOf i)

/-- The refresh has taken a lock. -/
def HasLock (c : Company ε) (i : Nat) : Prop :=
  4 ≤ (c.turnsOf i).length

structure Kept (c : Company ε) : Prop where
  keyed : ∀ w key, c.registry.key? w = some key → ∃ a, c.registry.access? key = some a
  known : ∀ e ∈ c.log, e.1 < c.refreshes.length
  tracked : ∀ (i : Nat) (f : Refresh ε), c.refreshes[i]? = some f →
    Tracks f.ticket f.wallet (c.turnsOf i) f.progress
  apart : ∀ (i j : Nat) (f g : Refresh ε), c.refreshes[i]? = some f → c.refreshes[j]? = some g →
    f.isUnderWay → g.isUnderWay → f.ticket = g.ticket → i = j
  found : ∀ (i : Nat) (f : Refresh ε) (key : Nat) (r : Registration), c.refreshes[i]? = some f →
    Registry.FoundAs f.wallet key r (c.turnsOf i) → c.registry.access? key = some r.access
  queued : Queued c.registry.line c.Queues c.HasLock

section

variable {c : Company ε} {i j : Nat} {wait : Wait}
  {t : Turns Wait (Registry ε) (Outcome Accounts)}

omit [Engine ε] in
theorem getElem?_modify (c : Company ε) (i : Nat) (progress : Progress ε) (j : Nat) :
    (c.modify i progress).refreshes[j]? =
      c.refreshes[j]?.map fun f => if i = j then { f with progress } else f := by
  show (c.refreshes.modify i _)[j]? = _
  rw [List.getElem?_modify]
  by_cases hj : i = j <;> simp [hj]

omit [Engine ε] in
theorem turnsOf_take (j : Nat) : (c.take i wait t).turnsOf j =
    c.turnsOf j ++ if i = j then [⟨wait, c.registry, t.state⟩] else [] := by
  show ((c.log ++ [_]).filter _).map _ = _
  rw [List.filter_append, List.map_append]
  by_cases hj : i = j <;> simp [turnsOf, hj]

/-- A turn is one of a course. -/
theorem Kept.turn (hk : c.Kept) (h : c.turn? i = some (wait, t)) :
    ∃ f, c.refreshes[i]? = some f ∧ f.isUnderWay ∧ c.registry.isOver wait ∧
      Registry.Awaits f.ticket f.wallet (c.turnsOf i) wait ∧
      (Registry.refresh f.ticket f.wallet).run.Course
        (c.turnsOf i ++ [⟨wait, c.registry, t.state⟩]) t := by
  unfold turn? at h
  cases hf : c.refreshes[i]? with
  | none =>
    rw [hf] at h
    cases h
  | some f =>
    obtain ⟨ticket, w, progress⟩ := f
    rw [hf] at h
    cases progress with
    | ended | abandoned => cases h
    | waits wait' resume =>
      dsimp only at h
      by_cases hover : c.registry.isOver wait'
      · rw [if_pos hover] at h
        cases h
        cases hk.tracked i _ hf with
        | waits htracks =>
          exact ⟨_, rfl, rfl, hover, Registry.refresh_awaits htracks, htracks.turn c.registry⟩
      · rw [if_neg hover] at h
        cases h

/-- The lock is for the first in the line. -/
theorem head_of_isOver {s : Registry ε} {key ticket : Nat} {a : Access}
    (ha : s.access? key = some a) (h : s.isOver (.lock key ticket) = true) :
    (s.line key).head? = some ticket := by
  obtain ⟨r, hr, -⟩ := Option.map_eq_some_iff.mp ha
  unfold Registry.isOver at h
  unfold Registry.line
  dsimp only at h
  rw [hr] at h ⊢
  exact of_decide_eq_true h

/-- From the fourth turn on a refresh is first in its line. -/
theorem Kept.first_of_turn {f : Refresh ε} {key : Nat} {r : Registration} (hk : c.Kept)
    (h : c.turn? i = some (wait, t)) (hf : c.refreshes[i]? = some f)
    (hlength : 3 ≤ (c.turnsOf i).length) (hfound : Registry.FoundAs f.wallet key r (c.turnsOf i)) :
    (c.registry.line key).head? = some f.ticket := by
  obtain ⟨f', hf', hway, hover, hawaits, -⟩ := hk.turn h
  cases hf.symm.trans hf'
  have hqueued := hk.queued.first key i f.ticket ⟨f, r, hf, hway, rfl, hlength, hfound⟩
  cases hawaits with
  | start | look | room => omega
  | lock h₃ hfound' =>
    -- this is the turn in which it takes the lock
    obtain ⟨rfl, rfl⟩ := Registry.foundAs_unique hfound hfound'
    exact head_of_isOver (hk.found i f key r hf hfound) hover
  | call h₄ => exact hqueued h₄

omit [Engine ε] in
theorem turnsOf_take_self : (c.take i wait t).turnsOf i =
    c.turnsOf i ++ [⟨wait, c.registry, t.state⟩] := by
  rw [turnsOf_take, if_pos rfl]

omit [Engine ε] in
theorem turnsOf_take_of_ne (hj : j ≠ i) : (c.take i wait t).turnsOf j = c.turnsOf j := by
  rw [turnsOf_take, if_neg hj.symm, List.append_nil]

omit [Engine ε] in
theorem queues_take_of_ne (hj : j ≠ i) (key ticket : Nat) :
    (c.take i wait t).Queues key j ticket ↔ c.Queues key j ticket := by
  have hrefresh : (c.take i wait t).refreshes[j]? = c.refreshes[j]? := by
    refine (getElem?_modify c i _ j).trans ?_
    simp [hj.symm]
  unfold Queues
  rw [hrefresh, turnsOf_take_of_ne hj]

omit [Engine ε] in
theorem queues_take_self {f : Refresh ε} (hf : c.refreshes[i]? = some f) (key ticket : Nat) :
    (c.take i wait t).Queues key i ticket ↔
      (∃ wait s resume, t = .pause wait s resume) ∧ f.ticket = ticket ∧ 2 ≤ (c.turnsOf i).length ∧
        ∃ r, Registry.FoundAs f.wallet key r (c.turnsOf i) := by
  have hrefresh : (c.take i wait t).refreshes[i]? = some { f with progress := .after t } := by
    refine (getElem?_modify c i _ i).trans ?_
    simp [hf]
  unfold Queues
  rw [hrefresh, turnsOf_take_self, List.length_append, List.length_singleton]
  constructor
  · rintro ⟨f', r, hf', hway, rfl, hlength, hfound⟩
    cases hf'
    have hfound := Registry.foundAs_concat.mp hfound
    refine ⟨?_, rfl, by omega, r, ?_⟩
    · cases t with
      | done o s => cases hway
      | pause wait s resume => exact ⟨_, _, _, rfl⟩
    · rcases hfound with hfound | ⟨hone, -⟩
      · exact hfound
      · omega
  · rintro ⟨⟨wait, s, resume, rfl⟩, rfl, hlength, r, hfound⟩
    exact ⟨_, r, rfl, rfl, rfl, by omega, hfound.append _⟩

omit [Engine ε] in
theorem not_queues {key ticket : Nat} (h : (c.turnsOf i).length < 3) : ¬c.Queues key i ticket := by
  rintro ⟨-, -, -, -, -, hlength, -⟩
  omega

/-- The ticket of a refresh under way belongs to nobody else in a line. -/
theorem Kept.ticket_iff {f : Refresh ε} {key ticket : Nat} (hk : c.Kept)
    (hf : c.refreshes[i]? = some f) (hway : f.isUnderWay) (h : c.Queues key j ticket) :
    ticket = f.ticket ↔ j = i := by
  obtain ⟨g, r, hg, hgway, rfl, -, -⟩ := h
  constructor
  · exact fun heq => hk.apart j i g f hg hf hgway hway heq
  · rintro rfl
    cases hf.symm.trans hg
    rfl

omit [Engine ε] in
theorem hasLock_take_of_ne (hj : j ≠ i) : (c.take i wait t).HasLock j ↔ c.HasLock j := by
  unfold HasLock
  rw [turnsOf_take_of_ne hj]

omit [Engine ε] in
theorem hasLock_take_self : (c.take i wait t).HasLock i ↔ 3 ≤ (c.turnsOf i).length := by
  unfold HasLock
  rw [turnsOf_take_self, List.length_append, List.length_singleton]
  omega

section

variable {f : Refresh ε} {key : Nat} {r : Registration}

/-- In its first two turns a refresh is in no line. -/
theorem Kept.queued_aside (hk : c.Kept) (hf : c.refreshes[i]? = some f)
    (hlength : (c.turnsOf i).length < 2) :
    Queued c.registry.line (c.take i wait t).Queues (c.take i wait t).HasLock := by
  have hnot : ∀ key ticket, ¬(c.take i wait t).Queues key i ticket := fun key ticket hq => by
    obtain ⟨-, -, hle, -⟩ := (queues_take_self hf key ticket).mp hq
    omega
  refine hk.queued.congr (fun key j ticket => ?_) fun key j ticket hq hlock => ?_
  · by_cases hj : j = i
    · subst hj
      exact iff_of_false (hnot key ticket) (not_queues (by omega))
    · exact queues_take_of_ne hj key ticket
  · have hj : j ≠ i := by
      rintro rfl
      exact hnot key ticket hq
    exact (hasLock_take_of_ne hj).mp hlock

/-- In its third turn a refresh goes to the end of the line. -/
theorem Kept.queued_lineUp (hk : c.Kept) (hf : c.refreshes[i]? = some f) (hway : f.isUnderWay)
    (ht : ∃ wait s resume, t = .pause wait s resume) (hlength : (c.turnsOf i).length = 2)
    (hfound : Registry.FoundAs f.wallet key r (c.turnsOf i)) :
    Queued (fun k => if k = key then c.registry.line key ++ [f.ticket] else c.registry.line k)
      (c.take i wait t).Queues (c.take i wait t).HasLock := by
  have hnew : ∀ k j, ¬c.Queues k j f.ticket := fun k j hq => by
    obtain rfl := (hk.ticket_iff hf hway hq).mp rfl
    exact not_queues (by omega) hq
  have hnolock : ¬c.HasLock i := fun hlock => by
    unfold HasLock at hlock
    omega
  refine (hk.queued.lineUp key hnew hnolock).congr (fun k j ticket => ?_) fun k j ticket _ hlock => ?_
  · by_cases hj : j = i
    · subst hj
      rw [queues_take_self hf]
      constructor
      · rintro ⟨-, rfl, -, r', hfound'⟩
        exact Or.inr ⟨(Registry.foundAs_unique hfound' hfound).1, rfl, rfl⟩
      · rintro (hq | ⟨rfl, -, rfl⟩)
        · exact absurd hq (not_queues (by omega))
        · exact ⟨ht, rfl, by omega, r, hfound⟩
    · rw [queues_take_of_ne hj]
      exact ⟨Or.inl, fun hq => hq.resolve_right fun h => hj h.2.1⟩
  · by_cases hj : j = i
    · subst hj
      have hle := hasLock_take_self.mp hlock
      omega
    · exact (hasLock_take_of_ne hj).mp hlock

/-- While it asks a refresh stays in front. -/
theorem Kept.queued_ask (hk : c.Kept) (h : c.turn? i = some (wait, t))
    (hf : c.refreshes[i]? = some f) (hway : f.isUnderWay)
    (ht : ∃ wait s resume, t = .pause wait s resume) (hlength : 3 ≤ (c.turnsOf i).length)
    (hfound : Registry.FoundAs f.wallet key r (c.turnsOf i)) :
    Queued c.registry.line (c.take i wait t).Queues (c.take i wait t).HasLock := by
  have hfirst : ∀ k ticket, c.Queues k i ticket → (c.registry.line k).head? = some ticket := by
    rintro k ticket ⟨g, r', hg, -, rfl, -, hfound'⟩
    cases hf.symm.trans hg
    exact hk.first_of_turn h hf hlength hfound'
  refine (hk.queued.lock hfirst).congr (fun k j ticket => ?_) fun k j ticket _ hlock => ?_
  · by_cases hj : j = i
    · subst hj
      rw [queues_take_self hf]
      constructor
      · rintro ⟨-, rfl, -, r', hfound'⟩
        exact ⟨f, r', hf, hway, rfl, hlength, hfound'⟩
      · rintro ⟨g, r', hg, -, rfl, -, hfound'⟩
        cases hf.symm.trans hg
        exact ⟨ht, rfl, by omega, r', hfound'⟩
    · exact queues_take_of_ne hj k ticket
  · by_cases hj : j = i
    · exact Or.inr hj
    · exact Or.inl ((hasLock_take_of_ne hj).mp hlock)

/-- In its last turn a refresh leaves the line. -/
theorem Kept.queued_leave (hk : c.Kept) (hf : c.refreshes[i]? = some f) (hway : f.isUnderWay)
    (ht : ∃ o s, t = .done o s) :
    Queued (fun k => (c.registry.line k).filter (· ≠ f.ticket)) (c.take i wait t).Queues
      (c.take i wait t).HasLock := by
  obtain ⟨o, s, rfl⟩ := ht
  refine (hk.queued.leave fun k j ticket hq => hk.ticket_iff hf hway hq).congr
    (fun k j ticket => ?_) fun k j ticket hq hlock => ?_
  · by_cases hj : j = i
    · subst hj
      rw [queues_take_self hf]
      exact iff_of_false (fun h => by obtain ⟨⟨_, _, _, h⟩, -⟩ := h; cases h) fun h => h.2 rfl
    · rw [queues_take_of_ne hj]
      exact (and_iff_left hj).symm
  · by_cases hj : j = i
    · subst hj
      obtain ⟨⟨_, _, _, heq⟩, -⟩ := (queues_take_self hf k ticket).mp hq
      cases heq
    · exact (hasLock_take_of_ne hj).mp hlock

end

theorem Kept.queued_take (hk : c.Kept) (h : c.turn? i = some (wait, t)) :
    Queued t.state.line (c.take i wait t).Queues (c.take i wait t).HasLock := by
  obtain ⟨f, hf, hway, -, -, hcourse⟩ := hk.turn h
  generalize hstate : t.state = s at hcourse ⊢
  cases Registry.refresh_turn hcourse with
  | begins hlength hleft | misses hlength hleft | finds hlength hleft =>
    have hs : s = c.registry := hleft
    rw [hs]
    exact hk.queued_aside hf (by omega)
  | @linesUp key _ _ hlength hfound hleft =>
    have hs : s = c.registry.lineUp key f.ticket := hleft
    have hline : ∀ k, (c.registry.lineUp key f.ticket).line k = _ :=
      Registry.line_lineUp (hk.found i f _ _ hf hfound)
    rw [hs, funext hline]
    exact hk.queued_lineUp hf hway ⟨_, _, _, rfl⟩ hlength hfound
  | asks hlength hfound he =>
    have hline : s.line = c.registry.line := funext he.line
    rw [hline]
    exact hk.queued_ask h hf hway ⟨_, _, _, rfl⟩ hlength hfound
  | @fails _ _ s' _ _ _ he hleft =>
    have hs : s = s'.leave f.ticket := hleft
    have hline : s.line = fun k => (c.registry.line k).filter (· ≠ f.ticket) := by
      funext k
      rw [hs, Registry.line_leave, he.line]
    rw [hline]
    exact hk.queued_leave hf hway ⟨_, _, rfl⟩
  | @succeeds key _ p _ _ hleft =>
    have hs : s = (c.registry.putUp key p).leave f.ticket := hleft
    have hline : s.line = fun k => (c.registry.line k).filter (· ≠ f.ticket) := by
      funext k
      rw [hs, Registry.line_leave, Registry.line_putUp]
    rw [hline]
    exact hk.queued_leave hf hway ⟨_, _, rfl⟩

omit [Engine ε] in
/-- Who a refresh is does not change. -/
theorem exists_of_modify {progress : Progress ε} {g : Refresh ε}
    (h : (c.modify i progress).refreshes[j]? = some g) :
    ∃ f, c.refreshes[j]? = some f ∧ f.ticket = g.ticket ∧ f.wallet = g.wallet ∧
      g.progress = if i = j then progress else f.progress := by
  rw [getElem?_modify] at h
  obtain ⟨f, hf, rfl⟩ := Option.map_eq_some_iff.mp h
  by_cases hj : i = j <;> exact ⟨f, hf, by simp [hj]⟩

theorem Kept.take (hk : c.Kept) (h : c.turn? i = some (wait, t)) : (c.take i wait t).Kept := by
  obtain ⟨f, hf, hway, -, -, hcourse⟩ := hk.turn h
  have hdeed := Registry.refresh_turn hcourse
  obtain ⟨hwallets, haccess⟩ : t.state.wallets = c.registry.wallets ∧
    ∀ k, t.state.access? k = c.registry.access? k := hdeed.frame
  have hway' : ∀ (j : Nat) (f' g : Refresh ε), c.refreshes[j]? = some f' →
      (g.progress = if i = j then .after t else f'.progress) → g.isUnderWay → f'.isUnderWay := by
    intro j f' g hf' hprogress hg
    by_cases hj : i = j
    · subst hj
      cases hf.symm.trans hf'
      exact hway
    · rw [if_neg hj] at hprogress
      unfold Refresh.isUnderWay at hg ⊢
      rwa [← hprogress]
  constructor
  · intro w key hkey
    obtain ⟨a, ha⟩ := hk.keyed w key ((congrArg (·.lookup w) hwallets).symm.trans hkey)
    exact ⟨a, (haccess key).trans ha⟩
  · intro e he
    have hlength : (c.take i wait t).refreshes.length = c.refreshes.length := List.length_modify _ _ _
    rw [hlength]
    rcases List.mem_append.mp he with he | he
    · exact hk.known e he
    · obtain rfl := List.mem_singleton.mp he
      exact (List.getElem?_eq_some_iff.mp hf).1
  · intro j g hg
    obtain ⟨f', hf', hticket, hwallet, hprogress⟩ := exists_of_modify hg
    by_cases hj : j = i
    · subst hj
      cases hf.symm.trans hf'
      rw [hprogress, if_pos rfl, turnsOf_take_self, ← hticket, ← hwallet]
      exact .after hcourse
    · rw [hprogress, if_neg (Ne.symm hj), turnsOf_take_of_ne hj, ← hticket, ← hwallet]
      exact hk.tracked j f' hf'
  · intro j₁ j₂ g₁ g₂ hg₁ hg₂ hway₁ hway₂ heq
    obtain ⟨f₁, hf₁, hticket₁, -, hprogress₁⟩ := exists_of_modify hg₁
    obtain ⟨f₂, hf₂, hticket₂, -, hprogress₂⟩ := exists_of_modify hg₂
    exact hk.apart j₁ j₂ f₁ f₂ hf₁ hf₂ (hway' j₁ f₁ g₁ hf₁ hprogress₁ hway₁)
      (hway' j₂ f₂ g₂ hf₂ hprogress₂ hway₂) (hticket₁.trans (heq.trans hticket₂.symm))
  · intro j g key r hg hfound
    obtain ⟨f', hf', -, hwallet, -⟩ := exists_of_modify hg
    refine (haccess key).trans ?_
    rw [← hwallet] at hfound
    by_cases hj : j = i
    · subst hj
      cases hf.symm.trans hf'
      rw [turnsOf_take_self] at hfound
      rcases Registry.foundAs_concat.mp hfound with hfound | ⟨-, hfind⟩
      · exact hk.found j f key r hf hfound
      · unfold Registry.access?
        rw [(Registry.find_ok hfind).2]
        rfl
    · rw [turnsOf_take_of_ne hj] at hfound
      exact hk.found j f' key r hf' hfound
  · exact hk.queued_take h

omit [Engine ε] in
theorem isUnderWay_of_abandoned {f g : Refresh ε} (hg : g.isUnderWay)
    (hprogress : g.progress = if i = j then .abandoned else f.progress) : f.isUnderWay ∧ j ≠ i := by
  unfold Refresh.isUnderWay at hg ⊢
  by_cases hj : i = j
  · rw [hprogress, if_pos hj] at hg
    cases hg
  · rw [hprogress, if_neg hj] at hg
    exact ⟨hg, Ne.symm hj⟩

omit [Engine ε] in
theorem queues_abandoned (s : Registry ε) (key j ticket : Nat) :
    Queues { c.modify i .abandoned with registry := s } key j ticket ↔
      c.Queues key j ticket ∧ j ≠ i := by
  constructor
  · rintro ⟨g, r, hg, hway, rfl, hlength, hfound⟩
    obtain ⟨f, hf, hticket, hwallet, hprogress⟩ := exists_of_modify hg
    obtain ⟨hway, hj⟩ := isUnderWay_of_abandoned hway hprogress
    exact ⟨⟨f, r, hf, hway, hticket, hlength, hwallet ▸ hfound⟩, hj⟩
  · rintro ⟨⟨g, r, hg, hway, rfl, hlength, hfound⟩, hj⟩
    refine ⟨g, r, (getElem?_modify c i _ j).trans ?_, hway, rfl, hlength, hfound⟩
    rw [hg, Option.map_some, if_neg (Ne.symm hj)]

/-- Whoever is given up leaves the line. -/
theorem Kept.giveUp {f : Refresh ε} (hk : c.Kept) (hf : c.refreshes[i]? = some f)
    (hway : f.isUnderWay) :
    Kept { c.modify i .abandoned with registry := c.registry.leave f.ticket } := by
  constructor
  · intro w key hkey
    obtain ⟨a, ha⟩ := hk.keyed w key hkey
    exact ⟨a, (Registry.access?_leave key).trans ha⟩
  · intro e he
    exact Nat.lt_of_lt_of_eq (hk.known e he) (List.length_modify _ _ _).symm
  · intro j g hg
    obtain ⟨f', hf', hticket, hwallet, hprogress⟩ := exists_of_modify hg
    rw [hprogress, ← hticket, ← hwallet]
    by_cases hj : i = j
    · rw [if_pos hj]
      exact .abandoned
    · rw [if_neg hj]
      exact hk.tracked j f' hf'
  · intro j₁ j₂ g₁ g₂ hg₁ hg₂ hway₁ hway₂ heq
    obtain ⟨f₁, hf₁, hticket₁, -, hprogress₁⟩ := exists_of_modify hg₁
    obtain ⟨f₂, hf₂, hticket₂, -, hprogress₂⟩ := exists_of_modify hg₂
    exact hk.apart j₁ j₂ f₁ f₂ hf₁ hf₂ (isUnderWay_of_abandoned hway₁ hprogress₁).1
      (isUnderWay_of_abandoned hway₂ hprogress₂).1 (hticket₁.trans (heq.trans hticket₂.symm))
  · intro j g key r hg hfound
    obtain ⟨f', hf', -, hwallet, -⟩ := exists_of_modify hg
    rw [← hwallet] at hfound
    exact (Registry.access?_leave key).trans (hk.found j f' key r hf' hfound)
  · show Queued (c.registry.leave f.ticket).line _ _
    have hline : (c.registry.leave f.ticket).line = _ := funext Registry.line_leave
    rw [hline]
    exact (hk.queued.leave fun k j ticket hq => hk.ticket_iff hf hway hq).congr
      (fun k j ticket => queues_abandoned _ k j ticket) fun _ _ _ _ hlock => hlock

theorem Kept.turnsOf_new (hk : c.Kept) : c.turnsOf c.refreshes.length = [] := by
  unfold turnsOf
  rw [List.map_eq_nil_iff, List.filter_eq_nil_iff]
  intro e he heq
  have hlt := hk.known e he
  have heq := of_decide_eq_true heq
  omega

/-- Whoever has only begun is in no line. -/
theorem Kept.queues_new (hk : c.Kept) (f : Refresh ε) (key j ticket : Nat) :
    Queues { c with refreshes := c.refreshes ++ [f] } key j ticket ↔ c.Queues key j ticket := by
  constructor
  · rintro ⟨g, r, hg, hway, heq, hlength, hfound⟩
    rcases getElem?_concat hg with hg | ⟨rfl, rfl⟩
    · exact ⟨g, r, hg, hway, heq, hlength, hfound⟩
    · have hlength : 3 ≤ (c.turnsOf c.refreshes.length).length := hlength
      rw [hk.turnsOf_new] at hlength
      exact absurd hlength (Nat.not_succ_le_zero 2)
  · rintro ⟨g, r, hg, hway, heq, hlength, hfound⟩
    obtain ⟨hlt, -⟩ := List.getElem?_eq_some_iff.mp hg
    exact ⟨g, r, by rwa [List.getElem?_append_left hlt], hway, heq, hlength, hfound⟩

/-- A refresh is begun under a ticket that is free. -/
theorem Kept.begin {ticket : Nat} (hk : c.Kept) (w : WalletId)
    (hfree : ∀ f ∈ c.refreshes, f.isUnderWay → f.ticket ≠ ticket) :
    Kept { c with refreshes :=
      c.refreshes ++ [⟨ticket, w, .waits .answer (Registry.refresh ticket w).run⟩] } := by
  constructor
  · exact hk.keyed
  · intro e he
    rw [List.length_append]
    exact Nat.lt_add_right 1 (hk.known e he)
  · intro j g hg
    show Tracks _ _ (c.turnsOf j) _
    rcases getElem?_concat hg with hg | ⟨rfl, rfl⟩
    · exact hk.tracked j g hg
    · rw [hk.turnsOf_new]
      exact .waits .begun
  · intro j₁ j₂ g₁ g₂ hg₁ hg₂ hway₁ hway₂ heq
    rcases getElem?_concat hg₁ with hg₁ | ⟨rfl, rfl⟩ <;>
      rcases getElem?_concat hg₂ with hg₂ | ⟨rfl, rfl⟩
    · exact hk.apart j₁ j₂ g₁ g₂ hg₁ hg₂ hway₁ hway₂ heq
    · exact absurd heq (hfree g₁ (List.mem_of_getElem? hg₁) hway₁)
    · exact absurd heq.symm (hfree g₂ (List.mem_of_getElem? hg₂) hway₂)
    · rfl
  · intro j g key r hg hfound
    rcases getElem?_concat hg with hg | ⟨rfl, rfl⟩
    · exact hk.found j g key r hg hfound
    · have hfound : Registry.FoundAs w key r (c.turnsOf c.refreshes.length) := hfound
      rw [hk.turnsOf_new] at hfound
      obtain ⟨τ, hτ, -⟩ := hfound
      cases hτ
  · exact hk.queued.congr (fun key j tk => hk.queues_new _ key j tk) fun _ _ _ _ hlock => hlock

/-- The registry changes where no refresh minds. -/
theorem Kept.registry {s : Registry ε} (hk : c.Kept)
    (hkeyed : ∀ w key, s.key? w = some key → ∃ a, s.access? key = some a)
    (haccess : ∀ k a, c.registry.access? k = some a → s.access? k = some a)
    (hline : ∀ k, s.line k = c.registry.line k) : Kept { c with registry := s } where
  keyed := hkeyed
  known := hk.known
  tracked := hk.tracked
  apart := hk.apart
  found i f key r hf hfound := haccess key _ (hk.found i f key r hf hfound)
  queued := by
    have hline : s.line = c.registry.line := funext hline
    show Queued s.line c.Queues c.HasLock
    rw [hline]
    exact hk.queued

theorem kept_new (config : Config) : Kept ({ registry := { config } } : Company ε) where
  keyed _ _ h := nomatch h
  known _ h := nomatch h
  tracked _ _ h := nomatch h
  apart _ _ _ _ h := nomatch h
  found _ _ _ _ h := nomatch h
  queued := ⟨fun key t => by simp [Registry.line, Queues], fun key => by simp [Registry.line],
    fun key i t ⟨_, _, h, _⟩ => nomatch h⟩

theorem Kept.perform (hk : c.Kept) (a : Act ε) : (c.perform a).Kept := by
  cases a with
  | begin ticket w =>
    unfold Company.perform
    dsimp only
    split
    · exact hk
    · next hfree =>
      refine hk.begin w fun f hf hway heq => hfree ?_
      exact List.any_eq_true.mpr ⟨f, hf, by simp [hway, heq]⟩
  | go i =>
    unfold Company.perform
    dsimp only
    split
    · next h => exact hk.take h
    · exact hk
  | giveUp i =>
    unfold Company.perform
    dsimp only
    split
    · next f hf =>
      split
      · next hway => exact hk.giveUp hf hway
      · exact hk
    · exact hk
  | engines engines => exact hk.registry hk.keyed (fun _ _ h => h) fun _ => rfl
  | register w access =>
    unfold Company.perform
    dsimp only
    split
    · exact hk
    · next hw =>
      refine hk.registry (fun w' key hkey => ?_) (fun _ _ h => Registry.access?_add h)
        fun k => Registry.line_add w access k
      have hw : c.registry.key? w = none := Option.not_isSome_iff_eq_none.mp hw
      have hkey : (if w' = w then some c.registry.registrations.length else c.registry.key? w') =
        some key := (Registry.lookup_insertWallet hw _ w').symm.trans hkey
      by_cases hw' : w' = w
      · rw [if_pos hw'] at hkey
        obtain rfl := Option.some.inj hkey
        refine ⟨access, ?_⟩
        unfold Registry.access?
        rw [Registry.getElem?_add, if_pos rfl]
        rfl
      · rw [if_neg hw'] at hkey
        obtain ⟨a, ha⟩ := hk.keyed w' key hkey
        exact ⟨a, Registry.access?_add ha⟩
  | remove w =>
    refine hk.registry (fun w' key hkey => ?_) (fun _ _ h => h) fun _ => rfl
    have hkey : (if w' = w then none else c.registry.key? w') = some key :=
      (Keyed.lookup_erase w w' c.registry.wallets).symm.trans hkey
    by_cases hw' : w' = w
    · rw [if_pos hw'] at hkey
      cases hkey
    · rw [if_neg hw'] at hkey
      exact hk.keyed w' key hkey

theorem Kept.after (hk : c.Kept) (acts : List (Act ε)) : (c.after acts).Kept := by
  induction acts generalizing c with
  | nil => exact hk
  | cons a acts ih => exact ih (hk.perform a)

/-- What holds of an empty registry and is kept by every act holds throughout. -/
theorem after_induction {P : Company ε → Prop} {config : Config}
    (h₀ : P { registry := { config } }) (hP : ∀ c a, Kept c → P c → P (c.perform a))
    (acts : List (Act ε)) :
    (({ registry := { config } } : Company ε).after acts).Kept ∧
      P (({ registry := { config } } : Company ε).after acts) := by
  unfold after
  suffices ∀ c, c.Kept → P c →
      (acts.foldl Company.perform c).Kept ∧ P (acts.foldl Company.perform c) from
    this _ (kept_new config) h₀
  induction acts with
  | nil => exact fun c hk h => ⟨hk, h⟩
  | cons a acts ih => exact fun c hk h => ih _ (hk.perform a) (hP c a hk h)

end

end Purse.Company
