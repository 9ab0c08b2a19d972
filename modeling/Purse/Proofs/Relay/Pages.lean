import Purse.Proofs.Relay.Completion

/-!
# Who has a page's name

A name is taken by one subscription at a time, and only that subscription or whoever
deregisters the page gives it up. `mem_pages_perform` says of every act which names are
taken after it; since subscriptions are numbered and numbers are never used again
(`numbers_after`), an old subscription of the page cannot give up the name of a newer one,
however late it ends.

A listener that has left its source has no place there any more, and one that has ended
has no name (`Paged`).

Main statement: `Proper.namesKept`.
-/

namespace Purse.Relay

variable {ε : Type} [Engine ε] {r : Relay ε} {i n job : Nat} {page : String} {l : Listener}
  {a : Act ε}

/-! ## Steps of a listener -/

theorem hear_ended {subscription : Nat} (hl : r.listeners[subscription]? = some l)
    (h : l.listening = .ended) : r.hear job subscription = r.finish job := by
  unfold hear
  rw [hl]
  dsimp only
  rw [h]

theorem hear_leaving {subscription : Nat} (hl : r.listeners[subscription]? = some l)
    (h : l.listening = .leaving) : r.hear job subscription = r.stop job subscription := by
  unfold hear
  rw [hl]
  dsimp only
  rw [h]

omit [Engine ε] in
theorem getElem?_stop (hl : r.listeners[i]? = some l) :
    (r.stop job i).listeners[i]? = some { l with listening := .ended } :=
  getElem?_modifyListener_self hl fun l => { l with listening := .ended }

/-- What a step of a listener that goes on leaves alone: names, the jobs there are, and
that it has not ended. -/
structure GoesOn (r : Relay ε) (i : Nat) (r' : Relay ε) : Prop where
  pages : r'.pages = r.pages
  jobs : ∃ more, r'.jobs = r.jobs ++ more
  listening : ∃ l', r'.listeners[i]? = some l' ∧ l'.listening ≠ .ended

omit [Engine ε] in
theorem goesOn_modify {r' : Relay ε} {f : Listener → Listener} (hl : r.listeners[i]? = some l)
    (hf : (f l).listening ≠ .ended) (hpages : r'.pages = r.pages)
    (hjobs : ∃ more, r'.jobs = r.jobs ++ more)
    (hlisteners : r'.listeners = (r.modifyListener i f).listeners) : GoesOn r i r' := by
  refine ⟨hpages, hjobs, f l, ?_, hf⟩
  rw [hlisteners]
  exact getElem?_modifyListener_self hl f

theorem hear_going (job : Nat) (hl : r.listeners[i]? = some l) (h : l.listening = .going) :
    GoesOn r i (r.hear job i) := by
  have hnot : l.listening ≠ .ended := by
    rw [h]
    exact Listening.noConfusion
  have hdetach : GoesOn r i (r.detach i l) :=
    goesOn_modify hl Listening.noConfusion rfl ⟨[], (List.append_nil _).symm⟩ rfl
  have hsame : ∀ r' : Relay ε, r'.pages = r.pages → (∃ more, r'.jobs = r.jobs ++ more) →
      r'.listeners = r.listeners → GoesOn r i r' := fun r' hpages hjobs hlisteners =>
    ⟨hpages, hjobs, l, by rw [hlisteners, hl], hnot⟩
  unfold hear
  rw [hl]
  dsimp only
  rw [h]
  dsimp only
  split
  · exact hdetach
  · split
    · exact hdetach
    · split
      · next w bus heq =>
        unfold dispatch
        split
        · exact hsame _ rfl ⟨[], (List.append_nil _).symm⟩ rfl
        · split
          · exact hsame _ rfl ⟨_, rfl⟩ rfl
          · exact hsame _ rfl ⟨[], (List.append_nil _).symm⟩ rfl
          · exact hsame _ rfl ⟨_, rfl⟩ rfl
          · exact goesOn_modify hl hnot rfl ⟨_, rfl⟩ rfl
      · exact hsame _ rfl ⟨_, rfl⟩ rfl
      · exact hdetach
      · exact hsame _ rfl ⟨[], (List.append_nil _).symm⟩ rfl

/-! ## Names that are taken and given up -/

/-- The subscription gives up the page's name, or somebody deregisters the page. -/
def Moment.Frees (m : Moment ε) (page : String) (n : Nat) : Prop :=
  m.act = .deregister page ∨ m.act = .release n ∨ m.act = .unsubscribe n ∨
    ∃ job l, m.act = .step job ∧ m.before.jobs.lookup job = some (.listen n) ∧
      m.before.listeners[n]? = some l ∧ l.listening = .leaving

/-- The subscription that is made: its page and its number. -/
def Moment.registers? (m : Moment ε) : Option (String × Nat) :=
  match m.act with
  | .register page w source => (m.before.register page w source).1.map fun n => (page, n)
  | _ => none

omit [Engine ε] in
/-- A subscription is made where the name is free and the source accepts, and its number
is the next one. Otherwise nothing happens. -/
theorem register_cases (r : Relay ε) (page : String) (w : WalletId) (source : Nat) :
    (∃ s, r.pages.lookup page = none ∧ r.sources[source]? = some s ∧ s.refusing = false ∧
      r.register page w source = (some r.listeners.length, r.join page w source s)) ∨
    (∀ s, r.pages.lookup page = none → r.sources[source]? = some s → s.refusing = true) ∧
      r.register page w source = (none, r) := by
  unfold register
  split
  · next s hpage hs =>
    split
    · next hrefusing =>
      refine Or.inr ⟨fun s' _ hs' => ?_, rfl⟩
      cases hs.symm.trans hs'
      exact hrefusing
    · next hrefusing =>
      exact Or.inl ⟨s, hpage, hs, Bool.eq_false_iff.mpr hrefusing, rfl⟩
  · next hnone =>
    exact Or.inr ⟨fun s hpage hs => absurd hs (hnone s hpage), rfl⟩

namespace Moment

omit [Engine ε] in
/-- A listener gives up its name in its last step. -/
theorem frees_step (hjob : r.jobs.lookup job = some (.listen i)) :
    Frees ⟨r, .step job⟩ page n ↔
      n = i ∧ ∃ l, r.listeners[i]? = some l ∧ l.listening = .leaving := by
  constructor
  · intro h
    rcases h with h | h | h | ⟨_, l, h, hjob', hl, hleaving⟩ <;> cases h
    cases hjob.symm.trans hjob'
    exact ⟨rfl, l, hl, hleaving⟩
  · intro h
    obtain ⟨rfl, l, hl, hleaving⟩ := h
    exact Or.inr (Or.inr (Or.inr ⟨job, l, rfl, hjob, hl, hleaving⟩))

omit [Engine ε] in
theorem not_frees_step (h : ∀ i, r.jobs.lookup job ≠ some (.listen i)) :
    ¬Frees ⟨r, .step job⟩ page n := by
  intro hfrees
  rcases hfrees with heq | heq | heq | ⟨_, _, heq, hjob, -⟩ <;> cases heq
  exact h n hjob

omit [Engine ε] in
theorem frees_deregister {page' : String} :
    Frees ⟨r, .deregister page'⟩ page n ↔ page = page' := by
  simp [Frees, eq_comm]

omit [Engine ε] in
theorem frees_release : Frees ⟨r, .release i⟩ page n ↔ n = i := by
  simp [Frees, eq_comm]

omit [Engine ε] in
theorem frees_unsubscribe : Frees ⟨r, .unsubscribe i⟩ page n ↔ n = i := by
  simp [Frees, eq_comm]

omit [Engine ε] in
/-- In all other acts no name is given up. -/
theorem not_frees (hstep : ∀ job, a ≠ .step job) (hderegister : a ≠ .deregister page)
    (hrelease : a ≠ .release n) (hunsubscribe : a ≠ .unsubscribe n) : ¬Frees ⟨r, a⟩ page n := by
  intro h
  rcases h with h | h | h | ⟨job, _, h, -⟩
  · exact hderegister h
  · exact hrelease h
  · exact hunsubscribe h
  · exact hstep job h

end Moment

/-- The step of a listener gives up names exactly if it is its last one. -/
theorem pages_step (r : Relay ε) (job : Nat) :
    (r.step job).pages = r.pages ∧ (∀ page n, ¬Moment.Frees ⟨r, .step job⟩ page n) ∨
    ∃ i, (r.step job).pages = r.pages.filter (·.2 ≠ i) ∧
      ∀ page n, Moment.Frees ⟨r, .step job⟩ page n ↔ n = i := by
  by_cases hlisten : ∃ i, r.jobs.lookup job = some (.listen i)
  · obtain ⟨i, hjob⟩ := hlisten
    rw [step_listen hjob]
    cases hl : r.listeners[i]? with
    | none =>
      refine Or.inl ⟨?_, fun page n h => ?_⟩
      · unfold hear
        rw [hl]
        rfl
      · obtain ⟨-, l, hl', -⟩ := (Moment.frees_step hjob).mp h
        cases hl.symm.trans hl'
    | some l =>
      have hnot : l.listening ≠ .leaving → ∀ page n, ¬Moment.Frees ⟨r, .step job⟩ page n := by
        intro hne page n h
        obtain ⟨-, l', hl', hleaving⟩ := (Moment.frees_step hjob).mp h
        cases hl.symm.trans hl'
        exact hne hleaving
      cases hlistening : l.listening with
      | ended =>
        rw [hear_ended hl hlistening]
        exact Or.inl ⟨rfl, hnot (by rw [hlistening]; exact Listening.noConfusion)⟩
      | going =>
        exact Or.inl ⟨(hear_going job hl hlistening).pages,
          hnot (by rw [hlistening]; exact Listening.noConfusion)⟩
      | leaving =>
        rw [hear_leaving hl hlistening]
        refine Or.inr ⟨i, rfl, fun page n => ?_⟩
        exact (Moment.frees_step hjob).trans (and_iff_left ⟨l, hl, hlistening⟩)
  · have hnone : ∀ i, r.jobs.lookup job ≠ some (.listen i) := fun i hjob => hlisten ⟨i, hjob⟩
    refine Or.inl ⟨?_, fun page n => Moment.not_frees_step hnone⟩
    have hstep := step_cases r job
    generalize r.step job = r' at hstep
    cases hstep with
    | idle | abandons => rfl
    | hears hjob => exact absurd hjob (hnone _)
    | @goes _ _ t => cases t <;> rfl

omit [Engine ε] in
/-- Who has a name after a page is deregistered. -/
theorem mem_pages_deregister {page' : String} :
    (page, n) ∈ (r.deregister page').2.pages ↔ (page, n) ∈ r.pages ∧ page ≠ page' := by
  unfold deregister
  cases hpage : r.pages.lookup page' with
  | none =>
    refine (and_iff_left_of_imp fun hmem => ?_).symm
    intro heq
    subst heq
    exact Keyed.lookup_eq_none_iff.mp hpage (List.mem_map_of_mem hmem)
  | some i =>
    show (page, n) ∈ r.pages.filter (·.1 ≠ page') ↔ _
    simp [List.mem_filter]

/-- After an act a subscription has a name if it had it and has not given it up, or has
just taken it. -/
theorem mem_pages_perform (r : Relay ε) (a : Act ε) (page : String) (n : Nat) :
    (page, n) ∈ (r.perform a).pages ↔ (page, n) ∈ r.pages ∧ ¬Moment.Frees ⟨r, a⟩ page n ∨
      Moment.registers? ⟨r, a⟩ = some (page, n) := by
  have haside : ∀ r' : Relay ε, r'.pages = r.pages → ¬Moment.Frees ⟨r, a⟩ page n →
      Moment.registers? ⟨r, a⟩ = none → ((page, n) ∈ r'.pages ↔
        (page, n) ∈ r.pages ∧ ¬Moment.Frees ⟨r, a⟩ page n ∨
          Moment.registers? ⟨r, a⟩ = some (page, n)) := by
    intro r' hpages hfrees hregisters
    rw [hpages, hregisters, and_iff_left hfrees]
    exact (or_iff_left nofun).symm
  -- acts by which one subscription gives up its name
  have hgives : ∀ i, (Moment.Frees ⟨r, a⟩ page n ↔ n = i) → Moment.registers? ⟨r, a⟩ = none →
      ((page, n) ∈ r.pages.filter (·.2 ≠ i) ↔ (page, n) ∈ r.pages ∧ ¬Moment.Frees ⟨r, a⟩ page n ∨
        Moment.registers? ⟨r, a⟩ = some (page, n)) := by
    intro i hfrees hregisters
    rw [hfrees, hregisters, or_iff_left nofun]
    simp [List.mem_filter]
  cases a with
  | step job =>
    show (page, n) ∈ (r.step job).pages ↔ _
    rcases pages_step r job with ⟨hpages, hfrees⟩ | ⟨i, hpages, hfrees⟩
    · exact haside _ hpages (hfrees page n) rfl
    · rw [hpages]
      exact hgives i (hfrees page n) rfl
  | register page' w source =>
    have hnot : ¬Moment.Frees ⟨r, .register page' w source⟩ page n :=
      Moment.not_frees nofun nofun nofun nofun
    rw [and_iff_left hnot]
    show (page, n) ∈ (r.register page' w source).2.pages ↔ _ ∨
      (r.register page' w source).1.map (fun n => (page', n)) = some (page, n)
    rcases register_cases r page' w source with ⟨s, -, -, -, heq⟩ | ⟨-, heq⟩ <;> rw [heq]
    · show (page, n) ∈ (page', r.listeners.length) :: r.pages ↔ _
      rw [List.mem_cons, or_comm, Option.map_some, Option.some.injEq]
      exact or_congr_right eq_comm
    · exact (or_iff_left nofun).symm
  | deregister page' =>
    rw [Moment.frees_deregister]
    show _ ↔ _ ∨ none = some (page, n)
    rw [or_iff_left nofun]
    exact mem_pages_deregister
  | release i => exact hgives i Moment.frees_release rfl
  | unsubscribe i => exact hgives i Moment.frees_unsubscribe rfl
  | others registry =>
    rcases perform_others r registry with heq | ⟨-, heq⟩ <;> rw [heq] <;>
      exact haside _ rfl (Moment.not_frees nofun nofun nofun nofun) rfl
  | cancel | takeMixerCompleted | addSource | setRefusing | announce | closeSource | watch
    | takeTickets => exact haside _ rfl (Moment.not_frees nofun nofun nofun nofun) rfl

/-! ## Numbers -/

/-- A subscription is made exactly where a listener joins, and its number is the next
one. -/
theorem registers?_perform (r : Relay ε) (a : Act ε) :
    Moment.registers? ⟨r, a⟩ = none ∧ (r.perform a).listeners.length = r.listeners.length ∨
      ∃ page, Moment.registers? ⟨r, a⟩ = some (page, r.listeners.length) ∧
        (r.perform a).listeners.length = r.listeners.length + 1 := by
  rcases length_perform r a with hlength | ⟨page, w, source, s, rfl, hs, heq⟩
  · refine Or.inl ⟨?_, hlength⟩
    cases a with
    | register page w source =>
      unfold Moment.registers?
      rcases register_cases r page w source with ⟨s, -, -, -, heq⟩ | ⟨-, heq⟩
      · have hjoin : (r.perform (.register page w source)).listeners.length =
            r.listeners.length + 1 := by
          show (r.register page w source).2.listeners.length = _
          rw [heq]
          exact List.length_append
        omega
      · dsimp only
        rw [heq]
        rfl
    | _ => rfl
  · have hjoin : (r.perform (.register page w source)).listeners.length = r.listeners.length + 1 := by
      rw [heq]
      exact List.length_append
    refine Or.inr ⟨page, ?_, hjoin⟩
    unfold Moment.registers?
    rcases register_cases r page w source with ⟨_, -, -, -, heq'⟩ | ⟨-, heq'⟩
    · dsimp only
      rw [heq']
      rfl
    · have hsame : (r.perform (.register page w source)).listeners.length = r.listeners.length := by
        show (r.register page w source).2.listeners.length = _
        rw [heq']
      omega

/-- The subscriptions that are made. -/
def registered (ms : List (Moment ε)) : List (String × Nat) :=
  ms.filterMap (·.registers?)

/-- Subscriptions are numbered in the order in which they are made, and no number is left
out or given out twice. -/
theorem numbers_after (r : Relay ε) (acts : List (Act ε)) :
    ∃ count, (r.after acts).listeners.length = r.listeners.length + count ∧
      (registered (r.moments acts)).map (·.2) = List.range' r.listeners.length count := by
  induction acts generalizing r with
  | nil => exact ⟨0, rfl, rfl⟩
  | cons a acts ih =>
    obtain ⟨count, hlength, hnumbers⟩ := ih (r.perform a)
    show ∃ count, ((r.perform a).after acts).listeners.length = _ ∧
      (registered (⟨r, a⟩ :: (r.perform a).moments acts)).map (·.2) = _
    unfold registered at hnumbers ⊢
    rcases registers?_perform r a with ⟨hnone, hsame⟩ | ⟨page, hsome, hmore⟩
    · rw [List.filterMap_cons_none hnone, hnumbers, hlength, hsame]
      exact ⟨count, rfl, rfl⟩
    · rw [List.filterMap_cons_some hsome, List.map_cons, hnumbers, hlength, hmore]
      exact ⟨count + 1, by omega, List.range'_succ.symm⟩

theorem length_le_perform (r : Relay ε) (a : Act ε) :
    r.listeners.length ≤ (r.perform a).listeners.length := by
  rcases registers?_perform r a with ⟨-, h⟩ | ⟨-, -, h⟩ <;> omega

/-- A subscription that has been made has a name as long as it had it and has not given it
up. -/
theorem mem_pages_after (hn : n < r.listeners.length) (acts : List (Act ε)) :
    (page, n) ∈ (r.after acts).pages ↔
      (page, n) ∈ r.pages ∧ ∀ m ∈ r.moments acts, ¬m.Frees page n := by
  induction acts generalizing r with
  | nil => exact (and_iff_left fun _ hm => nomatch hm).symm
  | cons a acts ih =>
    show (page, n) ∈ ((r.perform a).after acts).pages ↔
      _ ∧ ∀ m ∈ ⟨r, a⟩ :: (r.perform a).moments acts, ¬m.Frees page n
    have hold : Moment.registers? ⟨r, a⟩ ≠ some (page, n) := fun h => by
      rcases registers?_perform r a with ⟨hnone, -⟩ | ⟨page', hsome, -⟩
      · rw [hnone] at h
        cases h
      · cases hsome.symm.trans h
        exact Nat.lt_irrefl _ hn
    rw [ih (Nat.lt_of_lt_of_le hn (length_le_perform r a)), mem_pages_perform, or_iff_left hold,
      List.forall_mem_cons, and_assoc]

/-! ## What becomes of a listener -/

/-- In a step of its own a listener that goes on may leave its source, and one that has
left it ends. -/
theorem perform_stage (hl : r.listeners[i]? = some l) (a : Act ε) :
    ∃ l', (r.perform a).listeners[i]? = some l' ∧ l.Later l' ∧ (l'.listening = l.listening ∨
      ∃ job, a = .step job ∧ r.jobs.lookup job = some (.listen i) ∧
        (l.listening = .going ∧ l'.listening = .leaving ∨
          l.listening = .leaving ∧ l'.listening = .ended)) := by
  obtain ⟨l', hl', hlater, hsame | ⟨hnot, job, rfl, hjob⟩⟩ := perform_listeners hl a
  · exact ⟨l', hl', hlater, Or.inl hsame⟩
  · refine ⟨l', hl', hlater, ?_⟩
    have hl' : (r.hear job i).listeners[i]? = some l' := step_listen hjob ▸ hl'
    cases hlistening : l.listening with
    | ended =>
      rw [hear_ended hl hlistening] at hl'
      cases hl.symm.trans hl'
      exact Or.inl hlistening
    | leaving =>
      rw [hear_leaving hl hlistening, getElem?_stop hl] at hl'
      cases hl'
      exact Or.inr ⟨job, rfl, hjob, Or.inr ⟨rfl, rfl⟩⟩
    | going =>
      obtain ⟨l'', hl'', hended⟩ := (hear_going job hl hlistening).listening
      cases hl'.symm.trans hl''
      refine Or.inr ⟨job, rfl, hjob, Or.inl ⟨rfl, ?_⟩⟩
      cases hlistening' : l'.listening with
      | going => exact absurd hlistening' hnot
      | leaving => rfl
      | ended => exact absurd hlistening' hended

/-! ## Listeners that end -/

omit [Engine ε] in
/-- The receiver of a listener has no place at its source any more. -/
def Detached (r : Relay ε) (l : Listener) : Prop :=
  ∀ s, r.sources[l.source]? = some s → s.bus.position? l.receiver = none

omit [Engine ε] in
/-- What holds of the names that are taken, and of listeners that leave and end. -/
structure Paged (r : Relay ε) : Prop where
  names : (r.pages.map (·.1)).Nodup
  held : ∀ (page : String) (n : Nat), (page, n) ∈ r.pages →
    ∃ l, r.listeners[n]? = some l ∧ l.page = page ∧ l.listening ≠ .ended
  detached : ∀ (i : Nat) (l : Listener), r.listeners[i]? = some l → l.listening ≠ .going →
    r.Detached l
  attended : ∀ (i : Nat) (l : Listener), r.listeners[i]? = some l → l.listening ≠ .ended →
    ∃ job, r.jobs.lookup job = some (.listen i)

omit [Engine ε] in
theorem paged_new (registry : Registry ε) : Paged (new registry) where
  names := List.nodup_nil
  held _ _ h := nomatch h
  detached _ _ h := nomatch h
  attended _ _ h := nomatch h

/-- A name is taken only where it was free. -/
theorem pages_perform (r : Relay ε) (a : Act ε) : (r.perform a).pages.Sublist r.pages ∨
    ∃ page n, r.pages.lookup page = none ∧ (r.perform a).pages = (page, n) :: r.pages := by
  cases a with
  | step job =>
    refine Or.inl ?_
    show (r.step job).pages.Sublist _
    rcases pages_step r job with ⟨hpages, -⟩ | ⟨i, hpages, -⟩ <;> rw [hpages]
    exact List.filter_sublist
  | register page w source =>
    show (r.register page w source).2.pages.Sublist _ ∨
      ∃ page' n, _ ∧ (r.register page w source).2.pages = _
    rcases register_cases r page w source with ⟨s, hpage, -, -, heq⟩ | ⟨-, heq⟩ <;> rw [heq]
    · exact Or.inr ⟨page, _, hpage, rfl⟩
    · exact Or.inl (List.Sublist.refl _)
  | deregister page =>
    refine Or.inl ?_
    show (r.deregister page).2.pages.Sublist _
    unfold deregister
    split
    · exact List.Sublist.refl _
    · exact List.filter_sublist
  | release i | unsubscribe i => exact Or.inl List.filter_sublist
  | others registry =>
    rcases perform_others r registry with heq | ⟨-, heq⟩ <;> rw [heq] <;>
      exact Or.inl (List.Sublist.refl _)
  | cancel | takeMixerCompleted | addSource | setRefusing | announce | closeSource | watch
    | takeTickets => exact Or.inl (List.Sublist.refl _)

theorem registers?_eq_some (h : Moment.registers? ⟨r, a⟩ = some (page, n)) :
    n = r.listeners.length ∧ ∃ w source s, r.perform a = r.join page w source s := by
  cases a with
  | register page' w source =>
    unfold Moment.registers? at h
    dsimp only at h
    show n = _ ∧ ∃ w' source' s, (r.register page' w source).2 = _
    rcases register_cases r page' w source with ⟨s, -, -, -, heq⟩ | ⟨-, heq⟩ <;> rw [heq] at h ⊢
    · cases h
      exact ⟨rfl, w, source, s, rfl⟩
    · cases h
  | _ => cases h

theorem Paged.held_perform (hr : r.Paged) (h : (page, n) ∈ (r.perform a).pages) :
    ∃ l, (r.perform a).listeners[n]? = some l ∧ l.page = page ∧ l.listening ≠ .ended := by
  rcases (mem_pages_perform r a page n).mp h with ⟨hmem, hfrees⟩ | hregisters
  · obtain ⟨l, hl, hpage, hended⟩ := hr.held page n hmem
    obtain ⟨l', hl', hlater, hstage⟩ := perform_stage hl a
    refine ⟨l', hl', hlater.page.trans hpage, ?_⟩
    rcases hstage with hsame | ⟨job, rfl, hjob, ⟨-, hleft⟩ | ⟨hleaving, -⟩⟩
    · rwa [hsame]
    · rw [hleft]
      exact Listening.noConfusion
    · -- the last step of its listener would have freed the name
      exact absurd (Or.inr (Or.inr (Or.inr ⟨job, l, rfl, hjob, hl, hleaving⟩))) hfrees
  · obtain ⟨rfl, w, source, s, heq⟩ := registers?_eq_some hregisters
    rw [heq]
    refine ⟨_, List.getElem?_concat_length, rfl, ?_⟩
    exact Listening.noConfusion

theorem Paged.detached_perform (hr : r.Paged) (hattached : r.Attached) {l' : Listener}
    (hl' : (r.perform a).listeners[i]? = some l') (hleft : l'.listening ≠ .going) :
    (r.perform a).Detached l' := by
  rcases perform_joins hl' with ⟨l, hl⟩ | hjoins
  · obtain ⟨l'', hl'', hlater, hstage⟩ := perform_stage hl a
    cases hl'.symm.trans hl''
    obtain ⟨s, hs, hlt⟩ := hattached.given i l hl
    unfold Detached
    rw [hlater.source, hlater.receiver]
    intro s' hs'
    by_cases hgoing : l.listening = .going
    · -- it leaves in this step
      rcases hstage with hsame | ⟨job, rfl, hjob, -⟩
      · exact absurd (hsame.trans hgoing) hleft
      · cases own_step hjob hl hgoing hs with
        | receives hl'' hgoing' =>
          cases hl'.symm.trans hl''
          exact absurd hgoing' hleft
        | rests hlisteners =>
          rw [hlisteners] at hl'
          cases hl.symm.trans hl'
          exact absurd hgoing hleft
        | leaves _ _ hs'' =>
          cases hs'.symm.trans hs''
          exact (EventBus.position?_unsubscribe _ _ _).trans (if_pos rfl)
    · have hnone := hr.detached i l hl hgoing s hs
      by_cases hown : ∃ job, a = .step job ∧ r.jobs.lookup job = some (.listen i)
      · obtain ⟨job, rfl, hjob⟩ := hown
        rcases step_bus hjob hl hs hs' with hbus | hbus | hbus <;> rw [hbus]
        · exact hnone
        · exact (EventBus.position?_unsubscribe _ _ _).trans (if_pos rfl)
        · rw [EventBus.receive_none hnone]
          exact hnone
      · obtain ⟨s'', hs'', hfollows⟩ := (perform_sources r a).old l.source s hs
        cases hs'.symm.trans hs''
        exact (hfollows.position l.receiver hlt
          (not_moves hattached hl fun job ha hjob => hown ⟨job, ha, hjob⟩)).trans hnone
  · exact absurd hjoins.going hleft

theorem Paged.attended_perform (hr : r.Paged) (hnumbered : r.Numbered) {l' : Listener}
    (hl' : (r.perform a).listeners[i]? = some l') (hended : l'.listening ≠ .ended) :
    ∃ job, (r.perform a).jobs.lookup job = some (.listen i) := by
  rcases perform_joins hl' with ⟨l, hl⟩ | hjoins
  · obtain ⟨l'', hl'', -, hstage⟩ := perform_stage hl a
    cases hl'.symm.trans hl''
    have hbefore : l.listening ≠ .ended := by
      rcases hstage with hsame | ⟨_, -, -, ⟨hgoing, -⟩ | ⟨-, hlast⟩⟩
      · rwa [← hsame]
      · rw [hgoing]
        exact Listening.noConfusion
      · exact absurd hlast hended
    obtain ⟨job, hjob⟩ := hr.attended i l hl hbefore
    refine ⟨job, ?_⟩
    by_cases ha : a = .step job
    · subst ha
      show (r.step job).jobs.lookup job = _
      rw [step_listen hjob]
      cases hlistening : l.listening with
      | ended => exact absurd hlistening hbefore
      | going =>
        obtain ⟨more, hjobs⟩ := (hear_going job hl hlistening).jobs
        rw [hjobs, List.lookup_append, hjob, Option.some_or]
      | leaving =>
        have hl' : (r.step job).listeners[i]? = some l' := hl'
        rw [step_listen hjob, hear_leaving hl hlistening, getElem?_stop hl] at hl'
        cases hl'
        exact absurd rfl hended
    · rw [lookup_perform (hnumbered.lt_of_lookup hjob) ha, hjob]
  · refine ⟨r.nextJob, ?_⟩
    rw [hjoins.jobs, List.lookup_append, hnumbered.lookup (Nat.le_refl _), Option.none_or,
      List.lookup_cons, beq_self_eq_true]

omit [Engine ε] in
/-- What every history keeps. -/
structure Proper (r : Relay ε) : Prop where
  numbered : r.Numbered
  attached : r.Attached
  paged : r.Paged

omit [Engine ε] in
theorem proper_new (registry : Registry ε) : Proper (new registry) :=
  ⟨numbered_new registry, attached_new registry, paged_new registry⟩

theorem Proper.perform (hr : r.Proper) (a : Act ε) : (r.perform a).Proper where
  numbered := hr.numbered.perform a
  attached := hr.attached.perform a
  paged :=
    { names := by
        rcases pages_perform r a with hsub | ⟨page, n, hpage, heq⟩
        · exact hr.paged.names.sublist (hsub.map _)
        · rw [heq, List.map_cons]
          exact List.nodup_cons.mpr ⟨Keyed.lookup_eq_none_iff.mp hpage, hr.paged.names⟩
      held := fun _ _ h => hr.paged.held_perform h
      detached := fun _ _ hl hleft => hr.paged.detached_perform hr.attached hl hleft
      attended := fun _ _ hl hended => hr.paged.attended_perform hr.numbered hl hended }

theorem Proper.after (hr : r.Proper) (acts : List (Act ε)) : (r.after acts).Proper := by
  induction acts generalizing r with
  | nil => exact hr
  | cons a acts ih => exact ih (hr.perform a)

/-- Whoever has ended stays so. -/
theorem ended_after (hl : r.listeners[i]? = some l) (h : l.listening = .ended)
    (acts : List (Act ε)) :
    ∃ l', (r.after acts).listeners[i]? = some l' ∧ l.Later l' ∧ l'.listening = .ended := by
  induction acts generalizing r l with
  | nil => exact ⟨l, hl, .refl l, h⟩
  | cons a acts ih =>
    obtain ⟨l', hl', hlater, hstage⟩ := perform_stage hl a
    have hended : l'.listening = .ended := by
      rcases hstage with hsame | ⟨_, -, -, ⟨hgoing, -⟩ | ⟨hleaving, -⟩⟩
      · rw [hsame, h]
      · rw [h] at hgoing
        cases hgoing
      · rw [h] at hleaving
        cases hleaving
    obtain ⟨l'', hl'', hlater', hended'⟩ := ih hl' hended
    exact ⟨l'', hl'', hlater.trans hlater', hended'⟩

omit [Engine ε] in
/-- The listener has ended. -/
def Ended (r : Relay ε) (i : Nat) : Prop :=
  ∃ l, r.listeners[i]? = some l ∧ l.listening = .ended

theorem Ended.after (h : r.Ended i) (acts : List (Act ε)) : (r.after acts).Ended i := by
  obtain ⟨l, hl, hended⟩ := h
  obtain ⟨l', hl', -, hended'⟩ := ended_after hl hended acts
  exact ⟨l', hl', hended'⟩

/-- A subscription whose listener has ended has no name, and its receiver has no place at
its source any more. -/
theorem Proper.of_ended (hr : r.Proper) (hl : r.listeners[i]? = some l) (h : l.listening = .ended)
    (acts : List (Act ε)) :
    (∀ page, (page, i) ∉ (r.after acts).pages) ∧ (r.after acts).Detached l := by
  obtain ⟨l', hl', hlater, hended⟩ := ended_after hl h acts
  have hafter := (hr.after acts).paged
  constructor
  · intro page hmem
    obtain ⟨l'', hl'', -, hnot⟩ := hafter.held page i hmem
    cases hl'.symm.trans hl''
    exact hnot hended
  · have hleft := hafter.detached i l' hl' (by rw [hended]; exact Listening.noConfusion)
    unfold Detached at hleft ⊢
    rwa [hlater.source, hlater.receiver] at hleft

/-! ## Names -/

/-- What is true of names and numbers, whatever has happened and whatever happens next. -/
structure NamesKept (r : Relay ε) : Prop where
  /-- A name is taken by one subscription, which is the page's and whose listener has not
  ended. -/
  taken : (r.pages.map (·.1)).Nodup ∧ ∀ page n, (page, n) ∈ r.pages →
    ∃ l, r.listeners[n]? = some l ∧ l.page = page ∧ l.listening ≠ .ended
  /-- It is freed where the page is deregistered, where this subscription is given up, and
  where its listener ends, and nowhere else. -/
  freed : ∀ page n acts, (page, n) ∈ r.pages →
    ((page, n) ∈ (r.after acts).pages ↔ ∀ m ∈ r.moments acts, ¬m.Frees page n)
  /-- Subscriptions get one number after the other. -/
  numbered : ∀ acts, (registered (r.moments acts)).map (·.2) =
    List.range' r.listeners.length ((r.after acts).listeners.length - r.listeners.length)
  /-- A subscription is made exactly if the name is free and the source accepts. -/
  accepted : ∀ page w source, (r.register page w source).1.isSome ↔
    r.isRegistered page = false ∧ ∃ s, r.sources[source]? = some s ∧ s.refusing = false
  /-- Otherwise nothing changes. -/
  refused : ∀ page w source, (r.register page w source).1 = none →
    (r.register page w source).2 = r
  /-- If the name is taken, the source makes no difference. -/
  duplicate : ∀ page w source sources, r.isRegistered page →
    register { r with sources } page w source = (none, { r with sources })
  /-- A subscription that is given up has no name any more. -/
  givenUp : ∀ n < r.listeners.length, ∀ a, a = .release n ∨ a = .unsubscribe n → ∀ acts page,
    (page, n) ∉ ((r.perform a).after acts).pages
  /-- Nor has one whose listener has ended, and its source knows it no more. -/
  ended : ∀ (n : Nat) (l : Listener), r.listeners[n]? = some l → l.listening = .ended → ∀ acts,
    (∀ page, (page, n) ∉ (r.after acts).pages) ∧ (r.after acts).Detached l

theorem Proper.namesKept (hr : r.Proper) : NamesKept r where
  taken := ⟨hr.paged.names, hr.paged.held⟩
  freed page n acts hmem := by
    obtain ⟨l, hl, -⟩ := hr.paged.held page n hmem
    exact (mem_pages_after (List.getElem?_eq_some_iff.mp hl).1 acts).trans (and_iff_right hmem)
  numbered acts := by
    obtain ⟨count, hlength, hnumbers⟩ := numbers_after r acts
    rw [hnumbers, hlength, Nat.add_sub_cancel_left]
  accepted page w source := by
    unfold isRegistered
    rw [Option.isSome_eq_false_iff, Option.isNone_iff_eq_none]
    rcases register_cases r page w source with ⟨s, hpage, hs, hrefusing, heq⟩ | ⟨hnot, heq⟩ <;>
      rw [heq]
    · exact iff_of_true rfl ⟨hpage, s, hs, hrefusing⟩
    · refine iff_of_false Bool.false_ne_true ?_
      rintro ⟨hpage, s, hs, hrefusing⟩
      rw [hnot s hpage hs] at hrefusing
      cases hrefusing
  refused page w source h := by
    rcases register_cases r page w source with ⟨s, -, -, -, heq⟩ | ⟨-, heq⟩ <;> rw [heq] at h ⊢
    cases h
  duplicate page w source sources h := by
    obtain ⟨n, hn⟩ := Option.isSome_iff_exists.mp h
    unfold register
    dsimp only
    rw [hn]
  givenUp n hn a ha acts page hmem := by
    have hlt := Nat.lt_of_lt_of_le hn (length_le_perform r a)
    have hmem := ((mem_pages_after hlt acts).mp hmem).1
    rcases (mem_pages_perform r a page n).mp hmem with ⟨-, hfrees⟩ | hregisters
    · refine hfrees ?_
      rcases ha with ha | ha
      · exact Or.inr (Or.inl ha)
      · exact Or.inr (Or.inr (Or.inl ha))
    · rw [(registers?_eq_some hregisters).1] at hn
      exact Nat.lt_irrefl _ hn
  ended n l hl h acts := hr.of_ended hl h acts

end Purse.Relay
