import Purse.Proofs.Registry.Callers

/-!
# Those at work on a registry

`Workers` are any number of programs at work on one registry, under whatever names. A step
is a turn of one of them, one that gives up (`Goes`), one that joins, or a change of the
engines (`Step`). Whatever they do comes to acts of a company (`Reflects.step`), and so the lines of
a registry are `Orderly`: whoever is in one is at work, and whoever waits for a lock is in
the line for it.
-/

namespace Purse

variable {ε ι : Type} [Engine ε]

/-- What a program at work has left. What comes of it does not matter here. -/
structure Work (ε : Type) where
  ticket : Nat
  wait : Wait
  rest : Flow Wait (Registry ε) Unit

omit [Engine ε] in
/-- What is left after a turn. -/
def Work.after (work : Work ε) (t : Turns Wait (Registry ε) Unit) : Option (Work ε) :=
  t.left?.map fun (wait, rest) => { work with wait, rest }

/-- A registry and those at work on it. -/
structure Workers (ι ε : Type) where
  registry : Registry ε
  /-- The next ticket. -/
  next : Nat
  work? : ι → Option (Work ε)

namespace Workers

/-- Somebody goes on: he has a turn if he need not wait, or he gives up wherever he waits and
is out of every line. -/
inductive Goes (v : Workers ι ε) (x : ι) (v' : Workers ι ε) : Prop
  | turn {work : Work ε} (hx : v.work? x = some work) (hover : v.registry.isOver work.wait)
      (hregistry : v'.registry = (work.rest v.registry).state)
      (hself : v'.work? x = work.after (work.rest v.registry))
      (hothers : ∀ y, y ≠ x → v'.work? y = v.work? y)
  | quit {work : Work ε} (hx : v.work? x = some work)
      (hregistry : v'.registry = v.registry.leave work.ticket) (hself : v'.work? x = none)
      (hothers : ∀ y, y ≠ x → v'.work? y = v.work? y)

/-- What may happen next. -/
inductive Moves (v v' : Workers ι ε) : Prop
  | goes {x : ι} (h : Goes v x v')
  /-- Somebody joins under a new ticket. -/
  | join {x : ι} {work : Work ε} (hx : v.work? x = none) (hnew : v.next ≤ work.ticket)
      (hnext : work.ticket < v'.next) (hwait : work.wait.IsAside)
      (hcalls : Calls work.ticket work.rest) (hregistry : v'.registry = v.registry)
      (hself : v'.work? x = some work) (hothers : ∀ y, y ≠ x → v'.work? y = v.work? y)
  /-- Engines change in any way, or nothing happens. -/
  | engines (engines : List ε) (hregistry : v'.registry = { v.registry with engines })
      (hwork : ∀ y, v'.work? y = v.work? y)

/-- Tickets are never used again. -/
structure Step (v v' : Workers ι ε) : Prop where
  next : v.next ≤ v'.next
  moves : Moves v v'

/-- The company does what the programs do. -/
structure Reflects (v : Workers ι ε) (c : Company ε) : Prop where
  registry : c.registry = v.registry
  below : ∀ (x : ι) (work : Work ε), v.work? x = some work → work.ticket < v.next
  apart : ∀ (x y : ι) (work work' : Work ε), v.work? x = some work → v.work? y = some work' →
    work.ticket = work'.ticket → x = y
  stands : ∀ (x : ι) (work : Work ε), v.work? x = some work →
    c.Stands work.ticket work.wait work.rest
  free : ∀ ticket, (∀ (x : ι) (work : Work ε), v.work? x = some work → work.ticket ≠ ticket) →
    c.Free ticket

variable {v v' : Workers ι ε} {c c' : Company ε} {x y : ι} {work work' : Work ε} {ticket : Nat}

omit [Engine ε] in
/-- Whoever is at work afterwards has been before, or it is what is left to the one who moved. -/
theorem work?_cases {o : Option (Work ε)} (hself : v'.work? x = o)
    (hothers : ∀ y, y ≠ x → v'.work? y = v.work? y) (hy : v'.work? y = some work) :
    y = x ∧ o = some work ∨ y ≠ x ∧ v.work? y = some work := by
  by_cases hyx : y = x
  · subst hyx
    exact Or.inl ⟨rfl, hself.symm.trans hy⟩
  · exact Or.inr ⟨hyx, (hothers y hyx).symm.trans hy⟩

omit [Engine ε] in
/-- Whoever has a turn keeps his ticket. -/
theorem ticket_after {t : Turns Wait (Registry ε) Unit} (hx : v.work? x = some work)
    (hself : v'.work? x = work.after t) (hothers : ∀ y, y ≠ x → v'.work? y = v.work? y)
    (hy : v'.work? y = some work') : ∃ w, v.work? y = some w ∧ w.ticket = work'.ticket := by
  rcases work?_cases hself hothers hy with ⟨rfl, hafter⟩ | ⟨-, hy⟩
  · obtain ⟨_, -, rfl⟩ := Option.map_eq_some_iff.mp hafter
    exact ⟨work, hx, rfl⟩
  · exact ⟨work', hy, rfl⟩

/-- After a turn the others stand where they stood. -/
theorem Reflects.follows {t : Turns Wait (Registry ε) Unit} (hr : Reflects v c)
    (hnext : v.next ≤ v'.next) (hx : v.work? x = some work) (hf : c.Follows c' work.ticket t)
    (hregistry : v'.registry = t.state) (hself : v'.work? x = work.after t)
    (hothers : ∀ y, y ≠ x → v'.work? y = v.work? y) : Reflects v' c' where
  registry := hf.registry.trans hregistry.symm
  below y work' hy := by
    obtain ⟨w, hw, hticket⟩ := ticket_after hx hself hothers hy
    exact hticket ▸ Nat.lt_of_lt_of_le (hr.below y w hw) hnext
  apart y z workY workZ hy hz heq := by
    obtain ⟨w, hw, hticket⟩ := ticket_after hx hself hothers hy
    obtain ⟨w', hw', hticket'⟩ := ticket_after hx hself hothers hz
    exact hr.apart y z w w' hw hw' (hticket.trans (heq.trans hticket'.symm))
  stands y work' hy := by
    rcases work?_cases hself hothers hy with ⟨rfl, hafter⟩ | ⟨hyx, hy⟩
    · cases t with
      | done => cases hafter
      | pause =>
        cases hafter
        exact hf.pause _ _ _ rfl
    · have hticket : work'.ticket ≠ work.ticket := fun heq => hyx (hr.apart y x _ _ hy hx heq)
      exact (hr.stands y work' hy).of_same (hf.others _ hticket)
  free ticket hnone := by
    by_cases hticket : ticket = work.ticket
    · subst hticket
      cases t with
      | done a s => exact hf.done a s rfl
      | pause wait s rest => exact (hnone x _ hself rfl).elim
    · refine Company.Free.of_same (hr.free ticket fun y work' hy => ?_) (hf.others _ hticket)
      by_cases hyx : y = x
      · subst hyx
        cases hx.symm.trans hy
        exact Ne.symm hticket
      · exact hnone y work' ((hothers y hyx).trans hy)

/-- Nobody has a new ticket. -/
theorem Reflects.ne_new (hr : Reflects v c) (hnew : v.next ≤ ticket) (x : ι) (work : Work ε)
    (hx : v.work? x = some work) : work.ticket ≠ ticket :=
  Nat.ne_of_lt (Nat.lt_of_lt_of_le (hr.below x work hx) hnew)

theorem Reflects.join (hr : Reflects v c) (hle : v.next ≤ v'.next) (hnew : v.next ≤ work.ticket)
    (hnext : work.ticket < v'.next) (hwait : work.wait.IsAside)
    (hcalls : Calls work.ticket work.rest) (hx : v.work? x = none)
    (hregistry : v'.registry = v.registry) (hself : v'.work? x = some work)
    (hothers : ∀ y, y ≠ x → v'.work? y = v.work? y) : Reflects v' c where
  registry := hr.registry.trans hregistry.symm
  below y work' hy := by
    rcases work?_cases hself hothers hy with ⟨rfl, heq⟩ | ⟨-, hy⟩
    · cases heq
      exact hnext
    · exact Nat.lt_of_lt_of_le (hr.below y work' hy) hle
  apart y z workY workZ hy hz heq := by
    rcases work?_cases hself hothers hy with ⟨rfl, hnew₁⟩ | ⟨hyx, hy⟩ <;>
      rcases work?_cases hself hothers hz with ⟨rfl, hnew₂⟩ | ⟨hzx, hz⟩
    · rfl
    · cases hnew₁
      exact absurd heq.symm (hr.ne_new hnew z workZ hz)
    · cases hnew₂
      exact absurd heq (hr.ne_new hnew y workY hy)
    · exact hr.apart y z workY workZ hy hz heq
  stands y work' hy := by
    rcases work?_cases hself hothers hy with ⟨rfl, heq⟩ | ⟨-, hy⟩
    · cases heq
      exact .aside (hr.free work.ticket (hr.ne_new hnew)) hwait hcalls
    · exact hr.stands y work' hy
  free ticket hnone := by
    refine hr.free ticket fun y work' hy => hnone y work' ((hothers y ?_).trans hy)
    intro heq
    subst heq
    cases hx.symm.trans hy

/-- Whatever they do, some acts of a company reflect it. -/
theorem Reflects.step (hr : Reflects v c) (hk : c.Kept) (h : Step v v') :
    ∃ acts, Reflects v' (c.after acts) := by
  obtain ⟨hnext, h⟩ := h
  cases h with
  | @goes x h =>
    cases h with
    | @turn work hx hover hregistry hself hothers =>
      rw [← hr.registry] at hover
      obtain ⟨acts, hf⟩ := (hr.stands x work hx).follows hk hover
      rw [hr.registry] at hf
      exact ⟨acts, hr.follows hnext hx hf hregistry hself hothers⟩
    | @quit work hx hregistry hself hothers =>
      obtain ⟨acts, hf⟩ := (hr.stands x work hx).givenUp hk ()
      rw [hr.registry] at hf
      exact ⟨acts, hr.follows hnext hx hf hregistry hself hothers⟩
  | join hx hnew hlt hwait hcalls hregistry hself hothers =>
    exact ⟨[], hr.join hnext hnew hlt hwait hcalls hx hregistry hself hothers⟩
  | engines engines hregistry hwork =>
    refine ⟨[.engines engines], ?_, fun y w hy => ?_, fun y z w w' hy hz => ?_, fun y w hy => ?_,
      fun ticket hnone => ?_⟩
    · show { c.registry with engines } = _
      rw [hr.registry, hregistry]
    · exact Nat.lt_of_lt_of_le (hr.below y w ((hwork y).symm.trans hy)) hnext
    · exact hr.apart y z w w' ((hwork y).symm.trans hy) ((hwork z).symm.trans hz)
    · exact (hr.stands y w ((hwork y).symm.trans hy)).of_same fun _ _ _ => Iff.rfl
    · refine (hr.free ticket fun y w hy => ?_).of_same fun _ _ _ => Iff.rfl
      exact hnone y w ((hwork y).trans hy)

/-- A ticket that has been used and that nobody has any more is nobody's for good. -/
theorem Step.gone (h : Step v v') (hlt : ticket < v.next)
    (hnone : ∀ x work, v.work? x = some work → work.ticket ≠ ticket) :
    ticket < v'.next ∧ ∀ x work, v'.work? x = some work → work.ticket ≠ ticket := by
  refine ⟨Nat.lt_of_lt_of_le hlt h.next, fun y work' hy => ?_⟩
  cases h.moves with
  | goes h =>
    cases h with
    | turn hx _ _ hself hothers =>
      obtain ⟨w, hw, hticket⟩ := ticket_after hx hself hothers hy
      exact hticket ▸ hnone y w hw
    | quit _ _ hself hothers =>
      rcases work?_cases hself hothers hy with ⟨-, heq⟩ | ⟨-, hy⟩
      · cases heq
      · exact hnone y work' hy
  | join _ hnew _ _ _ _ hself hothers =>
    rcases work?_cases hself hothers hy with ⟨-, heq⟩ | ⟨-, hy⟩
    · cases heq
      omega
    · exact hnone y work' hy
  | engines _ _ hwork => exact hnone y work' ((hwork y).symm.trans hy)

/-! ## Lines -/

/-- What is true of the lines at any time. -/
structure Orderly (v : Workers ι ε) : Prop where
  apart : ∀ (x y : ι) (work work' : Work ε), v.work? x = some work → v.work? y = some work' →
    work.ticket = work'.ticket → x = y
  /-- Whoever is in a line is at work. -/
  atWork : ∀ key ticket, ticket ∈ v.registry.line key →
    ∃ x work, v.work? x = some work ∧ work.ticket = ticket
  /-- Nobody is in two lines. -/
  once : ∀ key key' ticket, ticket ∈ v.registry.line key → ticket ∈ v.registry.line key' → key = key'
  /-- Whoever waits for a lock is in the line for it. -/
  lock : ∀ x work key ticket, v.work? x = some work → work.wait = .lock key ticket →
    ticket = work.ticket ∧ ticket ∈ v.registry.line key
  /-- In the lines nobody moves anybody but himself. -/
  onward : ∀ x work, v.work? x = some work →
    work.rest.Within (fun _ => True) (Registry.Onward work.ticket)

end Workers

/-- Whoever is first in a line has the lock. -/
theorem Registry.isOver_lock {s : Registry ε} {key ticket : Nat}
    (h : (s.line key).head? = some ticket) : s.isOver (.lock key ticket) := by
  unfold line at h
  unfold isOver
  dsimp only
  cases hr : s.registrations[key]? with
  | none => rfl
  | some r =>
    rw [hr] at h
    exact decide_eq_true h

namespace Company

variable {c : Company ε} {ticket key key' i j : Nat} {wait : Wait} {α : Type}

/-- Nobody lines up for two registrations. -/
theorem Kept.line_once (hk : c.Kept) (h : ticket ∈ c.registry.line key)
    (h' : ticket ∈ c.registry.line key') : key = key' := by
  obtain ⟨i, f, r, hf, hway, hticket, -, hfound⟩ := (hk.queued.mem key ticket).mp h
  obtain ⟨j, g, r', hg, hway', hticket', -, hfound'⟩ := (hk.queued.mem key' ticket).mp h'
  obtain rfl := hk.apart i j f g hf hg hway hway' (hticket.trans hticket'.symm)
  cases hf.symm.trans hg
  exact (Registry.foundAs_unique hfound hfound').1

/-- Whoever waits for a lock is in the line for it. -/
theorem Stands.lined {x : Flow Wait (Registry ε) α} {ticket' : Nat}
    (h : Stands c ticket (.lock key ticket') x) (hk : c.Kept) :
    ticket' = ticket ∧ ticket' ∈ c.registry.line key := by
  cases h with
  | aside _ hwait => exact hwait.elim
  | @refreshes i w resume f hf =>
    obtain ⟨rfl, h₃, r, hfound⟩ : ticket' = ticket ∧ (c.turnsOf i).length = 3 ∧
        ∃ r, Registry.FoundAs w key r (c.turnsOf i) := by
      have htracks : Tracks ticket w (c.turnsOf i) _ := hk.tracked i _ hf
      cases htracks with
      | waits hwaits =>
        cases Registry.refresh_awaits hwaits with
        | lock h₃ hfound => exact ⟨rfl, h₃, _, hfound⟩
        | call _ _ hcall => exact hcall.elim
    refine ⟨rfl, (hk.queued.mem key ticket').mpr ⟨i, _, r, hf, rfl, rfl, ?_, hfound⟩⟩
    exact Nat.le_of_eq h₃.symm

theorem Stands.onward {x : Flow Wait (Registry ε) α} (h : Stands c ticket wait x) (hk : c.Kept) :
    x.Within (fun _ => True) (Registry.Onward ticket) := by
  cases h with
  | aside _ _ h => exact h.onward
  | @refreshes i w resume f hf h =>
    have htracks := hk.tracked i _ hf
    cases htracks with
    | waits hwaits =>
      exact .bind ((Registry.refresh_onward ticket w).waits hwaits) fun o => (h o).onward

end Company

namespace Workers

variable {v v' : Workers ι ε} {c : Company ε}

theorem Reflects.orderly (hr : Reflects v c) (hk : c.Kept) : Orderly v where
  apart := hr.apart
  atWork key ticket hmem := by
    rw [← hr.registry] at hmem
    obtain ⟨i, f, r, hf, hway, hticket, -⟩ := (hk.queued.mem key ticket).mp hmem
    -- if nobody had the ticket, the company would not have it either
    apply Classical.byContradiction
    intro hnone
    refine hr.free ticket (fun x work hx heq => ?_) i f hf hway hticket
    exact hnone ⟨x, work, hx, heq⟩
  once key key' ticket h h' := by
    rw [← hr.registry] at h h'
    exact hk.line_once h h'
  lock x work key ticket hx hwait := by
    have hstands := hr.stands x work hx
    rw [hwait] at hstands
    rw [← hr.registry]
    exact hstands.lined hk
  onward x work hx := (hr.stands x work hx).onward hk

/-- What somebody leaves alone who goes on. -/
theorem Goes.onward {x : ι} {work : Work ε} (h : Goes v x v') (ho : v.Orderly)
    (hx : v.work? x = some work) : Registry.Onward work.ticket v.registry v'.registry := by
  cases h with
  | turn hx' _ hregistry =>
    cases hx.symm.trans hx'
    rw [hregistry]
    exact (ho.onward x work hx _ _ (.first work.wait v.registry)).1 _ (List.mem_singleton_self _)
  | quit hx' hregistry =>
    cases hx.symm.trans hx'
    rw [hregistry]
    exact Registry.leave_onward _ _

/-- When somebody has ended, nobody has his ticket. -/
theorem Goes.gone {x : ι} {work : Work ε} (h : Goes v x v') (ho : v.Orderly)
    (hx : v.work? x = some work) (hends : v'.work? x = none) (y : ι) (work' : Work ε)
    (hy : v'.work? y = some work') : work'.ticket ≠ work.ticket := by
  intro heq
  have hyx : y ≠ x := by
    intro hyx
    subst hyx
    cases hends.symm.trans hy
  have hy' : v.work? y = some work' := by
    cases h with
    | turn _ _ _ _ hothers | quit _ _ _ hothers => exact (hothers y hyx).symm.trans hy
  exact hyx (ho.apart y x work' work hy' hx heq)

theorem Step.onward (h : Step v v') (ho : v.Orderly) :
    ∃ ticket, Registry.Onward ticket v.registry v'.registry := by
  cases h.moves with
  | goes h =>
    obtain ⟨work, hx⟩ : ∃ work, v.work? _ = some work := by
      cases h with
      | turn hx | quit hx => exact ⟨_, hx⟩
    exact ⟨work.ticket, h.onward ho hx⟩
  | join _ _ _ _ _ hregistry =>
    rw [hregistry]
    exact ⟨0, Std.Refl.refl _⟩
  | engines engines hregistry =>
    rw [hregistry]
    exact ⟨0, (Registry.Aside.engines v.registry engines).onward⟩

end Workers

end Purse
