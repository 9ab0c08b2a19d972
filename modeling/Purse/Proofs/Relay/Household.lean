import Purse.Proofs.Registry.Pictures
import Purse.Proofs.Relay.Abandoned
import Purse.Proofs.Relay.House

/-!
# What is true in a house at any time

`Household` collects what every act in a house preserves: the relay has its history, the
callers are where their turns have brought them, the lines of the registry are those of a
company, and every picture was taken by one refresh.

For the last, a picture only changes in a turn of a worker (`Household.turned`), and that
turn is the last one of a refresh (`Calls.shows`). From then on the registration may be
forgotten, but it never becomes another wallet's (`Precedes`).

Main statement: `household_after`.
-/

namespace Purse

variable {ε α : Type}

namespace Registry

/-- A registry and what has become of it: a registration stays its wallet's. -/
structure Precedes (config : Config) (s s' : Registry ε) : Prop where
  config : s.config = config
  owned : s.Owned
  length : s.registrations.length ≤ s'.registrations.length
  keys : ∀ w key, key < s.registrations.length → s'.key? w = some key → s.key? w = some key

variable {config : Config} {s s' s'' : Registry ε} {ticket key : Nat} {w w' : WalletId}
  {r : Registration}

theorem Precedes.refl (hconfig : s.config = config) (ho : s.Owned) : Precedes config s s :=
  ⟨hconfig, ho, Nat.le_refl _, fun _ _ _ h => h⟩

theorem Precedes.onward (h : Precedes config s s') (h' : Onward ticket s' s'') :
    Precedes config s s'' where
  config := h.config
  owned := h.owned
  length := Nat.le_trans h.length (length_le_of_accesses h'.accesses)
  keys w key hlt hkey :=
    h.keys w key hlt (h'.keys w key (Nat.lt_of_lt_of_le hlt h.length) hkey)

/-- Whoever was found under a number is the only one who may be found under it later. -/
theorem Precedes.only (h : Precedes config s s') (hfind : s.find w = .ok (key, r))
    (hkey : s'.key? w' = some key) : w' = w := by
  obtain ⟨hkey₀, -⟩ := find_ok hfind
  have hkey' := h.keys w' key (h.owned.registered w key hkey₀) hkey
  exact h.owned.apart w' w key hkey' hkey₀

theorem lt_of_picture {p : Accounts} (h : s.picture key = some p) :
    key < s.registrations.length := by
  unfold picture at h
  cases hr : s.registrations[key]? with
  | none =>
    rw [hr] at h
    cases h
  | some r => exact (List.getElem?_eq_some_iff.mp hr).1

end Registry

open Registry (Precedes)

/-! ## Pictures -/

/-- The second turn of a part has found what a turn of the whole has found. -/
theorem Part.found {ts part : List (Turn Wait (Registry ε))} (h : Part ts part)
    {τ : Turn Wait (Registry ε)} (hτ : part[1]? = some τ) : ∃ τ' ∈ ts, τ'.found = τ.found := by
  obtain ⟨ts', post, rfl, pre, first, mid, last, s, s', rfl, rfl⟩ := h
  rw [List.getElem?_cons_succ] at hτ
  have hmem := List.mem_of_getElem? hτ
  rcases List.mem_append.mp hmem with hmid | hlast
  · exact ⟨τ, by simp [hmid], rfl⟩
  · obtain rfl := List.mem_singleton.mp hlast
    exact ⟨last, by simp, rfl⟩

variable [Engine ε]

/-- In these turns the picture was taken by one refresh of the wallet that is registered
under the number, if any is. -/
def Taken (config : Config) (ts : List (Turn Wait (Registry ε))) (s : Registry ε) (key : Nat)
    (p : Accounts) : Prop :=
  ∃ ticket w part r, Part ts part ∧
    Registry.Refreshed ticket w config.effectiveConfirmations part (.ok p) ∧
    Registry.FoundAs w key r part ∧ ∀ w', s.key? w' = some key → w' = w

theorem Taken.onward {config : Config} {ts : List (Turn Wait (Registry ε))} {s s' : Registry ε}
    {key ticket : Nat} {p : Accounts} (h : Taken config ts s key p)
    (hlt : key < s.registrations.length) (honward : Registry.Onward ticket s s')
    (more : List (Turn Wait (Registry ε))) : Taken config (ts ++ more) s' key p := by
  obtain ⟨ticket', w, part, r, hpart, hrefreshed, hfound, honly⟩ := h
  exact ⟨ticket', w, part, r, hpart.append more, hrefreshed, hfound, fun w' hkey =>
    honly w' (honward.keys w' key hlt hkey)⟩

/-- A turn that changes a picture has taken it. -/
theorem Calls.taken {β : Type} {ticket : Nat} {x : Flow Wait (Registry ε) β} (h : Calls ticket x)
    {config : Config} {ts : List (Turn Wait (Registry ε))} {τ : Turn Wait (Registry ε)}
    {t : Turns Wait (Registry ε) β} {key : Nat} {p : Accounts} (hc : x.Course (ts ++ [τ]) t)
    (hfound : ∀ τ' ∈ ts ++ [τ], Precedes config τ'.found τ.left)
    (hne : τ.left.picture key ≠ τ.found.picture key) (hp : τ.left.picture key = some p) :
    Taken config (ts ++ [τ]) τ.left key p := by
  obtain ⟨w, part, p', r, hpart, hrefreshed, hfoundAs, hpicture⟩ :=
    h.shows hc (fun τ' hτ' => (hfound τ' hτ').config) hne
  cases hp.symm.trans hpicture
  refine ⟨ticket, w, part, r, hpart, hrefreshed, hfoundAs, fun w' hkey => ?_⟩
  obtain ⟨τ₁, hτ₁, hfind⟩ := hfoundAs
  obtain ⟨τ', hτ', heq⟩ := hpart.found hτ₁
  rw [← heq] at hfind
  exact (hfound τ' hτ').only hfind hkey

/-! ## Callers -/

/-- The caller is where its turns have brought it. -/
def Caller.Came (c : Caller ε α) : Prop :=
  match c.calling with
  | .waits wait rest => c.program.Waits .answer c.turns wait rest
  | .returned a => ∃ s, c.program.Course c.turns (.done a s)
  | .givenUp => ∃ wait rest, c.program.Waits .answer c.turns wait rest

omit [Engine ε] in
theorem Caller.Came.waits {c : Caller ε α} (h : c.Came) {wait : Wait}
    {rest : Flow Wait (Registry ε) α} (hwaits : c.calling = .waits wait rest) :
    c.program.Waits .answer c.turns wait rest := by
  unfold Came at h
  rwa [hwaits] at h

omit [Engine ε] in
theorem Caller.came_take {c : Caller ε α} {wait : Wait} {rest : Flow Wait (Registry ε) α}
    (h : c.program.Waits .answer c.turns wait rest) (s : Registry ε) :
    (c.take wait s (rest s)).Came := by
  have hcourse := h.turn s
  unfold Came Caller.take
  generalize rest s = t at hcourse
  cases t with
  | done a s' => exact ⟨s', hcourse⟩
  | pause wait' s' rest' => exact .pauses hcourse

namespace House

open Relay (Moment)

variable {config : Config} {ms : List (Moment ε)} {h : House ε α} {key : Nat}

/-- All turns of a worker. -/
def turnsOf (ms : List (Moment ε)) (h : House ε α) : Worker → List (Turn Wait (Registry ε))
  | .job n => Relay.turnsOf ms n
  | .caller i => (h.callers[i]?.map (·.turns)).getD []

omit [Engine ε] in
theorem turns_caller {i : Nat} {c : Caller ε α} (hc : h.callers[i]? = some c) :
    (h.callers[i]?.map (·.turns)).getD [] = c.turns := by
  rw [hc]
  rfl

/-! ## What every act preserves -/

structure Household (config : Config) (ms : List (Moment ε)) (h : House ε α) : Prop where
  recorded : Relay.Recorded ms h.relay
  waiting : Relay.Waiting ms h.relay
  told : Relay.ToldAtEnd ms h.relay
  reflects : ∃ c : Company ε, c.Kept ∧ h.workers.Reflects c
  current : Precedes config h.relay.registry h.relay.registry
  precedes : ∀ m ∈ ms, Precedes config m.before.registry h.relay.registry
  calls : ∀ (i : Nat) (c : Caller ε α), h.callers[i]? = some c → Calls c.ticket c.program
  came : ∀ (i : Nat) (c : Caller ε α), h.callers[i]? = some c → c.Came
  found : ∀ x, ∀ τ ∈ turnsOf ms h x, ∃ m ∈ ms, τ.found = m.before.registry
  taken : ∀ key p, h.relay.registry.picture key = some p →
    ∃ x, Taken config (turnsOf ms h x) h.relay.registry key p

theorem Household.orderly (hh : Household config ms h) : h.workers.Orderly := by
  obtain ⟨c, hkept, hreflects⟩ := hh.reflects
  exact hreflects.orderly hkept

theorem Household.step (hh : Household config ms h) (a : Act ε α) :
    Workers.Step h.workers (h.perform a).workers :=
  House.step hh.recorded.numbered a

theorem Household.relay (hh : Household config ms h) (a : Act ε α) :
    (h.perform a).relay = h.relay.perform (h.relayAct a) :=
  perform_relay hh.recorded.numbered hh.orderly a

/-- The configuration that somebody finds is always the one the house has begun with. -/
theorem Household.config_found (hh : Household config ms h) (x : Worker) :
    ∀ τ ∈ turnsOf ms h x, τ.found.config = config := by
  intro τ hτ
  obtain ⟨m, hm, hfound⟩ := hh.found x τ hτ
  rw [hfound]
  exact (hh.precedes m hm).config

theorem household_new (config : Config) : Household config [] (new config : House ε α) where
  recorded := Relay.recorded_new _
  waiting := Relay.waiting_new _
  told := Relay.told_new _
  reflects := by
    have hnobody : ∀ x, (new config : House ε α).workers.work? x = none := fun x => by
      cases x <;> rfl
    refine ⟨{ registry := { config } }, Company.kept_new config, rfl, ?_, ?_, ?_, ?_⟩
    · intro x work hx
      cases (hnobody x).symm.trans hx
    · intro x _ work _ hx
      cases (hnobody x).symm.trans hx
    · intro x work hx
      cases (hnobody x).symm.trans hx
    · exact fun _ _ _ _ hf => nomatch hf
  current := .refl rfl ⟨(fun _ _ h => nomatch h), fun _ _ _ h => nomatch h⟩
  precedes _ h := nomatch h
  calls _ _ h := nomatch h
  came _ _ h := nomatch h
  found x τ hτ := by
    cases x <;> cases hτ
  taken _ _ h := nomatch h

/-- A turn of somebody, and the program in whose course it is. -/
inductive Turned (ms : List (Moment ε)) (h h' : House ε α) (x : Worker) : Prop
  | intro {β : Type} {ticket : Nat} {program : Flow Wait (Registry ε) β}
      {ts : List (Turn Wait (Registry ε))} {wait : Wait} {t : Turns Wait (Registry ε) β}
      (hcalls : Calls ticket program)
      (hcourse : program.Course (ts ++ [⟨wait, h.relay.registry, h'.relay.registry⟩]) t)
      (hturns : turnsOf ms h' x = ts ++ [⟨wait, h.relay.registry, h'.relay.registry⟩])

/-- Pictures change in turns only. -/
theorem Household.turned (hh : Household config ms h) (a : Act ε α)
    (hne : (h.perform a).relay.registry.picture key ≠ h.relay.registry.picture key) :
    ∃ x, Turned (ms ++ [⟨h.relay, h.relayAct a⟩]) h (h.perform a) x := by
  cases a with
  | relay a ha =>
    by_cases hstep : ∃ n, a = .step n
    · obtain ⟨n, rfl⟩ := hstep
      have hne : (h.relay.step n).registry.picture key ≠ h.relay.registry.picture key := hne
      have hstep := Relay.step_cases h.relay n
      generalize hr : h.relay.step n = r' at hstep hne
      cases hstep with
      | idle => exact absurd rfl hne
      | hears _ _ hhears => cases hhears <;> exact absurd rfl hne
      | abandons => exact absurd (Registry.picture_leave key) hne
      | @goes subscription wait t _ hturn =>
        obtain ⟨_, _, w, reason, -, -, hcourse⟩ := hh.recorded.turn hturn
        have hregistry : (h.relay.step n).registry = t.state := by
          rw [hr, Relay.registry_advance]
        have hturns : Relay.turnsOf (ms ++ [⟨h.relay, .step n⟩]) n = _ := Relay.turnsOf_step hturn
        rw [← hregistry] at hcourse hturns
        exact ⟨.job n, .intro (Relay.refreshEvents_calls n w reason) hcourse hturns⟩
    · refine absurd (congrArg (Registry.picture · key) (Relay.perform_registry h.relay ?_ ha)) hne
      exact fun n heq => hstep ⟨n, heq⟩
  | begin | engines => exact absurd rfl hne
  | go i =>
    have hgo := go_cases h i
    generalize hh' : h.perform (.go i) = h' at hgo hne
    cases hgo with
    | idle => exact absurd rfl hne
    | @goes c wait rest hc hwaits hover =>
      have hturns := turns_caller (getElem?_modify_self hc fun c =>
        c.take wait h.relay.registry (rest h.relay.registry))
      exact ⟨.caller i, .intro (hh.calls i c hc) (((hh.came i c hc).waits hwaits).turn _) hturns⟩
  | giveUp i =>
    have hgiveUp := giveUp_cases h i
    generalize h.perform (.giveUp i) = h' at hgiveUp hne
    cases hgiveUp with
    | idle => exact absurd rfl hne
    | gives => exact absurd (Registry.picture_leave key) hne

/-- Nobody's turns are forgotten, and the new ones begin now. -/
theorem turnsOf_perform (ms : List (Moment ε)) (h : House ε α) (a : Act ε α) (x : Worker) :
    ∃ more, turnsOf (ms ++ [⟨h.relay, h.relayAct a⟩]) (h.perform a) x = turnsOf ms h x ++ more ∧
      ∀ τ ∈ more, τ.found = h.relay.registry := by
  cases x with
  | job n =>
    refine ⟨_, Relay.turnsOf_concat ms _ n, fun τ hτ => ?_⟩
    exact Relay.found_of_turn? (Option.mem_toList.mp hτ)
  | caller i =>
    show ∃ more, ((h.perform a).callers[i]?.map (·.turns)).getD [] =
      (h.callers[i]?.map (·.turns)).getD [] ++ more ∧ _
    cases hc : h.callers[i]? with
    | none =>
      refine ⟨[], ?_, fun τ hτ => nomatch hτ⟩
      cases hc' : (h.perform a).callers[i]? with
      | none => rfl
      | some c' =>
        obtain ⟨_, _, -, rfl⟩ := caller_new hc hc'
        rfl
    | some c =>
      obtain ⟨c', hc', hbecomes⟩ := becomes hc a
      rw [turns_caller hc']
      cases hbecomes with
      | same | givenUp => exact ⟨[], (List.append_nil _).symm, fun τ hτ => nomatch hτ⟩
      | goes =>
        refine ⟨[_], rfl, fun τ hτ => ?_⟩
        obtain rfl := List.mem_singleton.mp hτ
        rfl

theorem Household.calls_perform (hh : Household config ms h) (a : Act ε α) (i : Nat)
    (c : Caller ε α) (hc : (h.perform a).callers[i]? = some c) :
    Calls c.ticket c.program ∧ c.Came := by
  cases hold : h.callers[i]? with
  | none =>
    obtain ⟨program, hcalls, -, rfl⟩ := caller_new hold hc
    exact ⟨hcalls _, .begun⟩
  | some c₀ =>
    obtain ⟨c', hc', hbecomes⟩ := becomes hold a
    cases hc.symm.trans hc'
    have hcalls := hh.calls i c₀ hold
    have hcame := hh.came i c₀ hold
    cases hbecomes with
    | same => exact ⟨hcalls, hcame⟩
    | goes _ hwaits => exact ⟨hcalls, Caller.came_take (hcame.waits hwaits) _⟩
    | givenUp _ hwaits => exact ⟨hcalls, _, _, hcame.waits hwaits⟩

theorem Household.perform (hh : Household config ms h) (a : Act ε α) :
    Household config (ms ++ [⟨h.relay, h.relayAct a⟩]) (h.perform a) := by
  have hrelay := hh.relay a
  obtain ⟨ticket, honward⟩ := (hh.step a).onward hh.orderly
  have honward : Registry.Onward ticket h.relay.registry (h.perform a).relay.registry := honward
  have hprecedes : ∀ m ∈ ms ++ [⟨h.relay, h.relayAct a⟩],
      Precedes config m.before.registry (h.perform a).relay.registry := fun m hm => by
    rcases List.mem_append.mp hm with hm | hm
    · exact (hh.precedes m hm).onward honward
    · obtain rfl := List.mem_singleton.mp hm
      exact hh.current.onward honward
  have hfound : ∀ x, ∀ τ ∈ turnsOf (ms ++ [⟨h.relay, h.relayAct a⟩]) (h.perform a) x,
      ∃ m ∈ ms ++ [⟨h.relay, h.relayAct a⟩], τ.found = m.before.registry := fun x τ hτ => by
    obtain ⟨more, hmore, hnow⟩ := turnsOf_perform ms h a x
    rw [hmore] at hτ
    rcases List.mem_append.mp hτ with hτ | hτ
    · obtain ⟨m, hm, hregistry⟩ := hh.found x τ hτ
      exact ⟨m, List.mem_append_left _ hm, hregistry⟩
    · exact ⟨_, List.mem_append_right _ (List.mem_singleton_self _), hnow τ hτ⟩
  constructor
  · rw [hrelay]
    exact hh.recorded.perform _
  · rw [hrelay]
    exact hh.waiting.perform hh.recorded _
  · rw [hrelay]
    exact hh.told.perform hh.recorded _
  · obtain ⟨c, hkept, hreflects⟩ := hh.reflects
    obtain ⟨acts, hreflects'⟩ := hreflects.step hkept (hh.step a)
    exact ⟨c.after acts, hkept.after acts, hreflects'⟩
  · exact .refl (honward.config.trans hh.current.config) (honward.owned hh.current.owned)
  · exact hprecedes
  · exact fun i c hc => (hh.calls_perform a i c hc).1
  · exact fun i c hc => (hh.calls_perform a i c hc).2
  · exact hfound
  · intro key p hp
    by_cases hsame : (h.perform a).relay.registry.picture key = h.relay.registry.picture key
    · rw [hsame] at hp
      obtain ⟨x, htaken⟩ := hh.taken key p hp
      obtain ⟨more, hmore, -⟩ := turnsOf_perform ms h a x
      refine ⟨x, ?_⟩
      rw [hmore]
      exact htaken.onward (Registry.lt_of_picture hp) honward more
    · obtain ⟨x, hturned⟩ := hh.turned a hsame
      cases hturned with
      | intro hcalls hcourse hturns =>
        refine ⟨x, ?_⟩
        rw [hturns]
        refine hcalls.taken hcourse (fun τ hτ => ?_) hsame hp
        obtain ⟨m, hm, hregistry⟩ := hfound x τ (hturns ▸ hτ)
        rw [hregistry]
        exact hprecedes m hm

theorem Household.after (hh : Household config ms h) (acts : List (Act ε α)) :
    Household config (ms ++ h.moments acts) (h.after acts) := by
  induction acts generalizing ms h with
  | nil => rwa [moments, List.append_nil]
  | cons a acts ih =>
    rw [moments, List.append_cons]
    exact ih (hh.perform a)

/-- Whatever has happened in a house since it was new. -/
theorem household_after (config : Config) (acts : List (Act ε α)) :
    Household config ((new config).moments acts) ((new config : House ε α).after acts) :=
  (household_new config).after acts

end House

end Purse
