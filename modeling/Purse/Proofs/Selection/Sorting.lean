import Purse.Proofs.Engine.Outputs
import Purse.Proofs.Selection.Stable
import Purse.Proofs.Selection.Steady

/-!
# Clicks on columns

Each sort answers a click on a column, and all clicks are counted by one tracker. What the
tracker knows of them is `Tracker.Follows`: the column that was clicked last, and whether it
has been clicked an odd number of times in a row (`streak`); that its counter wraps round
makes no difference.

What sorts do to a group is told by `keysOf`, the clicks that have reached the group since
its outputs were loaded, the latest first. `Arranged` says that the group lists the loaded
outputs sorted stably by these keys in turn. Each change keeps it (`Change.arranged`): one
more sort is one more key, and nothing else moves a row.

Main statement: `Runs.sorted_by_clicks`, for whatever happens between two fetches.
-/

namespace Purse

/-! ## The counter -/

/-- How often the last column was clicked in a row; the latest click comes first. -/
def streak : List Column → Nat
  | [] => 0
  | c :: clicks => (clicks.takeWhile (· = c)).length + 1

/-- The direction that so many clicks in a row stand for. -/
def Direction.ofStreak (n : Nat) : Direction :=
  if n % 2 = 1 then .ascending else .descending

/-- The tracker has seen these clicks since it was fresh, the latest first. -/
structure Tracker.Follows (t : Tracker) (clicks : List Column) : Prop where
  column : t.column = clicks.head?
  parity : t.clicks.toNat % 2 = streak clicks % 2

namespace Tracker

variable {t : Tracker} {clicks : List Column}

theorem follows_fresh : Follows {} [] :=
  ⟨rfl, rfl⟩

/-- Where another column was clicked before, a streak begins. -/
theorem streak_cons (c : Column) (clicks : List Column) :
    streak (c :: clicks) = if clicks.head? = some c then streak clicks + 1 else 1 := by
  cases clicks with
  | nil => rfl
  | cons b clicks =>
    by_cases hb : b = c
    · subst hb
      simp [streak]
    · simp [streak, hb]

/-- The counter has an even number of values, so that it wraps round does not matter. -/
theorem Follows.click (h : t.Follows clicks) (c : Column) : (t.click c).Follows (c :: clicks) := by
  unfold Tracker.click
  rw [h.column]
  by_cases hc : clicks.head? = some c
  · rw [if_pos hc]
    have hparity := h.parity
    refine ⟨hc, ?_⟩
    have hwraps : (t.clicks + 1).toNat = (t.clicks.toNat + 1) % 4294967296 :=
      UInt32.toNat_add t.clicks 1
    rw [streak_cons, if_pos hc]
    show (t.clicks + 1).toNat % 2 = _
    omega
  · rw [if_neg hc]
    refine ⟨rfl, ?_⟩
    rw [streak_cons, if_neg hc]
    rfl

theorem Follows.direction (h : t.Follows clicks) : t.direction = .ofStreak (streak clicks) := by
  have hodd : t.clicks % 2 = 1 ↔ t.clicks.toNat % 2 = 1 := by
    rw [← UInt32.toNat_inj, UInt32.toNat_mod]
    rfl
  unfold Tracker.direction Direction.ofStreak
  simp only [hodd, h.parity]

end Tracker

/-- Whose group it is. -/
def Group.label (g : Group) : UInt32 × String :=
  (g.account, g.name)

/-- The outputs that a group lists, in their order. -/
def Group.outputs (g : Group) : List UnspentOutput :=
  g.rows.map (·.output)

/-- The group lists outputs of its own account. -/
def Group.Tagged (g : Group) : Prop :=
  ∀ o ∈ g.outputs, o.account = g.account

namespace Selection

variable {ε : Type} [Engine ε] {s s' : Selection} {e : Event} {es : List Event}
  {groups : List Group} {accounts : List UInt32} {i : Nat}

/-! ## Events as clicks -/

/-- The click that a sort has answered, with the direction of the sort. -/
def Event.click? : Event → Option (Column × Direction)
  | sort c d | sortAccount _ c (.ok d) => some (c, d)
  | _ => none

/-- The clicks that count, after an event. -/
def Event.onClicks : Event → List Column → List Column
  | clear, _ | fetch (.ok _), _ => []
  | sort c _, clicks | sortAccount _ c (.ok _), clicks => c :: clicks
  | _, clicks => clicks

/-- The clicks that count after a run from a fetch: those since the last clearing, the latest
first. -/
def clicksOf (es : List Event) : List Column :=
  es.foldl (fun clicks e => e.onClicks clicks) []

/-- Whether a sort reaches the group at a place among those of the accounts. A sort of one
account reaches its first group. -/
def Event.reaches (accounts : List UInt32) (i : Nat) : Event → Bool
  | sortAccount account _ _ => accounts.findIdx? (· = account) = some i
  | _ => true

/-- The clicks that have reached the group at a place, the latest first. -/
def keysOf (accounts : List UInt32) (i : Nat) (es : List Event) : List (Column × Direction) :=
  ((es.filter (Event.reaches accounts i)).filterMap Event.click?).reverse

theorem clicksOf_step (es : List Event) (e : Event) :
    clicksOf (es ++ [e]) = e.onClicks (clicksOf es) := by
  unfold clicksOf
  rw [List.foldl_append, List.foldl_cons, List.foldl_nil]

theorem keysOf_reached {k : Column × Direction} (hr : e.reaches accounts i = true)
    (hk : e.click? = some k) : keysOf accounts i (es ++ [e]) = k :: keysOf accounts i es := by
  unfold keysOf
  simp [hr, hk]

theorem keysOf_missed (h : e.reaches accounts i = false ∨ e.click? = none) :
    keysOf accounts i (es ++ [e]) = keysOf accounts i es := by
  unfold keysOf
  rcases h with hr | hk
  · simp [hr]
  · by_cases hr : e.reaches accounts i = true <;> simp [hr, hk]

theorem Event.Failed.click? (h : e.Failed) : e.click? = none := by
  cases e with
  | fetch o | toggle _ o | setSelected _ _ o | submit o => rfl
  | sortAccount _ _ o =>
    cases o with
    | error => rfl
    | ok => exact h.elim
  | sort | clear => exact h.elim

theorem Event.Failed.onClicks (h : e.Failed) (clicks : List Column) :
    e.onClicks clicks = clicks := by
  cases e with
  | toggle _ o | setSelected _ _ o | submit o => rfl
  | fetch o | sortAccount _ _ o =>
    cases o with
    | error => rfl
    | ok => exact h.elim
  | sort | clear => exact h.elim

/-! ## What sorts do to groups -/

/-- Between sorts everything is where it was. -/
theorem Change.listing (h : Change s e s') (he : ∀ groups, e ≠ .fetch (.ok groups))
    (hk : e.click? = none) :
    s'.groups.map (fun g => (g.label, g.outputs)) = s.groups.map fun g => (g.label, g.outputs) := by
  have hf : ∀ (g : Group) (rows : List Row), rows.map (·.output) = g.rows.map (·.output) →
      (({ g with rows } : Group).label, ({ g with rows } : Group).outputs) =
        (g.label, g.outputs) := fun g rows hrows => congrArg (Prod.mk g.label) hrows
  cases h with
  | failed | keep | submit => rfl
  | load => exact absurd rfl (he _)
  | set | toggle => exact map_groups_mark hf _ _ _ _ _
  | clear => exact map_groups_clear hf s
  | sort | sortAccount => cases hk

/-- Every group of the loaded ones lists what was loaded, sorted by the clicks that have
reached it. -/
structure Arranged (groups : List Group) (es : List Event) (s : Selection) : Prop where
  clicks : s.tracker.Follows (clicksOf es)
  labels : s.groups.map Group.label = groups.map Group.label
  outputs : ∀ i g₀ g, groups[i]? = some g₀ → s.groups[i]? = some g →
    StablySorted (byKeys (keysOf (groups.map (·.account)) i es)) g₀.outputs g.outputs

theorem Arranged.accounts_eq (ha : Arranged groups es s) :
    s.groups.map (·.account) = groups.map (·.account) := by
  have hlabels := congrArg (List.map Prod.fst) ha.labels
  simpa [Group.label, Function.comp_def] using hlabels

/-- Where nothing was sorted only the clicks are in question. -/
theorem Arranged.of_listing (ha : Arranged groups es s)
    (hl : s'.groups.map (fun g => (g.label, g.outputs)) =
      s.groups.map fun g => (g.label, g.outputs))
    (hk : e.click? = none) (hclicks : s'.tracker.Follows (e.onClicks (clicksOf es))) :
    Arranged groups (es ++ [e]) s' := by
  refine ⟨by rwa [clicksOf_step], ?_, ?_⟩
  · have hlabels := congrArg (List.map Prod.fst) hl
    rw [List.map_map, List.map_map] at hlabels
    exact hlabels.trans ha.labels
  · intro i g₀ g h₀ h
    have hi := congrArg (·[i]?) hl
    rw [List.getElem?_map, List.getElem?_map, h] at hi
    obtain ⟨g', hg', heq⟩ := Option.map_eq_some_iff.mp hi.symm
    have houtputs : g'.outputs = g.outputs := congrArg Prod.snd heq
    rw [keysOf_missed (Or.inr hk), ← houtputs]
    exact ha.outputs i g₀ g' h₀ hg'

/-- A sort of everything is a key for every group. -/
theorem Arranged.sort (ha : Arranged groups es s) (c : Column) :
    Arranged groups (es ++ [.sort c (s.sort c).1]) (s.sort c).2 := by
  refine ⟨?_, ?_, ?_⟩
  · rw [clicksOf_step]
    exact ha.clicks.click c
  · show (s.groups.map (Group.sorted c _)).map Group.label = _
    rw [List.map_map, ← ha.labels]
    rfl
  · intro i g₀ g h₀ h
    have h : (s.groups.map (Group.sorted c (s.tracker.click c).direction))[i]? = some g := h
    rw [List.getElem?_map] at h
    obtain ⟨g', hg', rfl⟩ := Option.map_eq_some_iff.mp h
    rw [keysOf_reached rfl rfl]
    exact (ha.outputs i g₀ g' h₀ hg').sortRows c _

/-- A sort of one account is a key for its first group only. -/
theorem Arranged.sortGroup (ha : Arranged groups es s) {account : UInt32} {c : Column}
    {pre post : List Group} {g : Group} (hg : s.groups = pre ++ g :: post)
    (hpre : ∀ k ∈ pre, k.account ≠ account) (hacc : g.account = account) :
    Arranged groups (es ++ [.sortAccount account c (.ok (s.tracker.click c).direction)])
      (s.sortGroup c pre g post) := by
  have hfirst : (groups.map (·.account)).findIdx? (· = account) = some pre.length := by
    rw [← ha.accounts_eq, hg, List.map_append, List.map_cons, List.findIdx?_append,
      List.findIdx?_eq_none_iff.mpr (by simpa using hpre), List.findIdx?_cons]
    simp [hacc]
  have hgroups : (s.sortGroup c pre g post).groups =
      s.groups.set pre.length (g.sorted c (s.tracker.click c).direction) := by
    rw [hg, List.set_append_right _ _ (Nat.le_refl _), Nat.sub_self]
    rfl
  have hthere : s.groups[pre.length]? = some g := by
    rw [hg]
    exact getElem?_append_cons pre g post
  refine ⟨?_, ?_, ?_⟩
  · rw [clicksOf_step]
    exact ha.clicks.click c
  · show (pre ++ g.sorted c _ :: post).map Group.label = _
    rw [← ha.labels, hg, List.map_append, List.map_append]
    rfl
  · intro i g₀ g' h₀ h
    rw [hgroups] at h
    by_cases hi : pre.length = i
    · subst hi
      rw [List.getElem?_set_self (List.getElem?_eq_some_iff.mp hthere).1] at h
      cases h
      rw [keysOf_reached (by simpa [Event.reaches] using hfirst) rfl]
      exact (ha.outputs _ g₀ g h₀ hthere).sortRows c _
    · rw [List.getElem?_set_ne hi] at h
      have hmissed : Event.reaches (groups.map (·.account)) i
          (.sortAccount account c (.ok (s.tracker.click c).direction)) = false := by
        simp [Event.reaches, hfirst, hi]
      rw [keysOf_missed (Or.inl hmissed)]
      exact ha.outputs i g₀ g' h₀ h

/-- Every change but a fetch keeps the groups arranged by the clicks. -/
theorem Change.arranged (h : Change s e s') (he : ∀ groups, e ≠ .fetch (.ok groups))
    (ha : Arranged groups es s) : Arranged groups (es ++ [e]) s' := by
  have hlisting := h.listing he
  cases h with
  | failed hf =>
    exact ha.of_listing (hlisting hf.click?) hf.click? (by rw [hf.onClicks]; exact ha.clicks)
  | load => exact absurd rfl (he _)
  | keep | submit => exact ha.of_listing (hlisting rfl) rfl ha.clicks
  | set | toggle =>
    refine ha.of_listing (hlisting rfl) rfl ?_
    rw [mark_eq]
    exact ha.clicks
  | clear =>
    refine ha.of_listing (hlisting rfl) rfl ?_
    rw [clear_eq]
    exact Tracker.follows_fresh
  | sort => exact ha.sort _
  | sortAccount hg hpre hacc => exact ha.sortGroup hg hpre hacc

/-- Once it is loaded, everything is where it was loaded. -/
theorem arranged_load (s : Selection) (sizing : Sizing) (groups : List Group) :
    Arranged groups [] (s.load sizing groups) := by
  refine ⟨Tracker.follows_fresh, rfl, ?_⟩
  intro i g₀ g h₀ h
  obtain rfl : g₀ = g := Option.some.inj (h₀.symm.trans h)
  exact stablySorted_tied g₀.outputs

/-- The clicks are answered in the direction that their number stands for. -/
theorem Arranged.direction (ha : Arranged groups es s) (h : Change s e s') {c : Column}
    {d : Direction} (hk : e.click? = some (c, d)) :
    d = .ofStreak (streak (c :: clicksOf es)) := by
  cases h with
  | failed hf =>
    rw [hf.click?] at hk
    cases hk
  | sort | sortAccount =>
    cases hk
    exact (ha.clicks.click c).direction
  | _ => cases hk

/-- A sort of an account is answered if and only if there is a group of the account, in the
direction that the number of its click stands for. -/
theorem Arranged.sortAccount (ha : Arranged groups es s) (account : UInt32) (c : Column) :
    ((sortAccount account c).run s).1 =
      if account ∈ groups.map (·.account) then .ok (.ofStreak (streak (c :: clicksOf es)))
      else .error (.notFound (.group account s.wallet)) := by
  rw [← ha.accounts_eq]
  rcases s.sortAccount_run account c with ⟨hr, hno⟩ | ⟨pre, g, post, hg, -, hacc, hr⟩
  · have hnone : account ∉ s.groups.map (·.account) := fun hmem => by
      obtain ⟨g, hg, heq⟩ := List.mem_map.mp hmem
      exact hno g hg heq
    rw [hr, if_neg hnone]
  · have hmem : g ∈ s.groups := by
      rw [hg]
      exact List.mem_append_right _ List.mem_cons_self
    rw [hr, if_pos (List.mem_map.mpr ⟨g, hmem, hacc⟩)]
    exact congrArg Except.ok (ha.clicks.click c).direction

/-- A click moves whole rows, within their groups. -/
theorem Change.moves_rows (h : Change s e s') (hk : e.click? ≠ none) :
    List.Forall₂ (fun g g' : Group => g'.rows.Perm g.rows) s.groups s'.groups := by
  cases h with
  | failed hf => exact absurd hf.click? hk
  | sort => exact (resorted_sort s _).imp fun _ _ hg => hg.perm
  | sortAccount hg => exact (resorted_sortGroup hg).imp fun _ _ hg => hg.perm
  | _ => exact absurd rfl hk

/-! ## What is loaded -/

theorem fetchGroup_tagged (w : WalletId) (a : Account) :
    (fetchGroup w a : Registry.Op ε Group).Gives Group.Tagged := by
  unfold fetchGroup Registry.unspentOutputs Registry.listUnspent Registry.accept
  refine .bind (P := fun outputs => ∀ o ∈ outputs, o.account = a.number) ?_ ?_
  · refine .bind (.trivial _) fun _ _ => .bind (.trivial _) fun _ _ => .bind (.trivial _) fun rows _ => ?_
    refine .conclude fun outputs houtputs => ?_
    cases hreport : outputsOfReport a.number rows with
    | error f =>
      rw [hreport] at houtputs
      cases houtputs
    | ok outputs' =>
      rw [hreport] at houtputs
      cases houtputs
      exact accounts_of_report hreport
  · intro outputs houtputs
    refine .pure fun o ho => ?_
    have ho : o ∈ (outputs.map fun output => (⟨output, false⟩ : Row)).map (·.output) := ho
    simp only [List.map_map, Function.comp_def, List.map_id'] at ho
    exact houtputs o ho

theorem fetchGroups_tagged (ticket : Nat) (w : WalletId) :
    (fetchGroups ticket w : Registry.Op ε (Sizing × List Group)).Gives
      fun found => ∀ g ∈ found.2, g.Tagged := by
  unfold fetchGroups
  refine .bind (.trivial _) fun access _ => .bind (.trivial _) fun snapshot _ => ?_
  refine .bind (.mapM (fetchGroup_tagged w) snapshot.accounts) fun groups hgroups => ?_
  exact .bind (.trivial _) fun sizing _ => .pure hgroups

/-- A fetch that succeeds has loaded the groups that it answers, each with outputs of its own
account. -/
theorem Move.fetched (h : Move ε s (.fetch (.ok groups)) s') :
    (∃ sizing, s' = s.load sizing groups) ∧ ∀ g ∈ groups, g.Tagged := by
  generalize he : Event.fetch (.ok groups) = e at h
  cases h with
  | @fetch _ ticket registry registry' o hends =>
    obtain ⟨found, registry₁, hfound, hload⟩ := Turns.ends_bind hends
    cases found with
    | error f =>
      have hdone : (Turns.done (Except.error f, s) registry₁ :
          Turns Wait _ (Outcome Unit × Selection)).Ends (o, s') registry' := hload
      cases hdone
      cases he
    | ok found =>
      have hdone : (Turns.done (Except.ok (), s.load found.1 found.2) registry₁ :
          Turns Wait _ (Outcome Unit × Selection)).Ends (o, s') registry' := hload
      cases hdone
      cases he
      exact ⟨⟨found.1, rfl⟩, fetchGroups_tagged ticket s.wallet _ _ _ hfound⟩
  | _ => cases he

/-! ## Runs -/

/-- Every event of a run was a move from where the events before it had led. -/
theorem Runs.before {s₀ : Selection} {pre post : List Event} (h : Runs ε s₀ es s)
    (hes : es = pre ++ e :: post) : ∃ s₁ s₂, Runs ε s₀ pre s₁ ∧ Move ε s₁ e s₂ := by
  induction h generalizing post with
  | start => simp at hes
  | step h hm ih =>
    rcases List.eq_nil_or_concat' post with rfl | ⟨post, last, rfl⟩
    · obtain ⟨rfl, he⟩ := List.append_inj' hes rfl
      obtain rfl := List.singleton_inj.mp he
      exact ⟨_, _, h, hm⟩
    · rw [← List.cons_append, ← List.append_assoc] at hes
      obtain ⟨rfl, -⟩ := List.append_inj' hes rfl
      exact ih rfl

theorem Runs.arranged {s₀ : Selection} (h : Runs ε s₀ es s) (ha : Arranged groups [] s₀)
    (hfetch : ∀ groups, .fetch (.ok groups) ∉ es) : Arranged groups es s := by
  refine h.keeps (P := fun es s => (∀ groups, .fetch (.ok groups) ∉ es) → Arranged groups es s)
    (fun _ => ha) ?_ hfetch
  intro es s e s' hc ih hfetch
  simp only [List.mem_append, List.mem_singleton, not_or] at hfetch
  exact hc.arranged (fun groups heq => (hfetch groups).2 heq.symm) (ih fun groups => (hfetch groups).1)

/-- Whatever happens between two successful fetches, every group is that of the account it was
loaded for and lists what was loaded for it, outputs of that account, sorted stably by the
clicks that have reached it, the latest first. Each click was answered in the direction that
its number in the row of clicks on its column stands for, where all clicks count that were
made since the last clearing; and it has moved whole rows, flags included, within their
groups. A sort of one account was such a click if and only if there is a group of the account,
and so will be the next one. -/
theorem Runs.sorted_by_clicks {s₀ s₁ : Selection} (hm : Move ε s₀ (.fetch (.ok groups)) s₁)
    (h : Runs ε s₁ es s) (hfetch : ∀ groups, .fetch (.ok groups) ∉ es) :
    s.groups.map Group.label = groups.map Group.label ∧
    (∀ i g₀ g, groups[i]? = some g₀ → s.groups[i]? = some g →
      let keys := keysOf (groups.map (·.account)) i es
      StablySorted (byKeys keys) g₀.outputs g.outputs ∧
      g.outputs = g₀.outputs.mergeSort (fun a b => (byKeys keys a b).isLE) ∧
      ∀ o ∈ g.outputs, o.account = g.account) ∧
    (∀ pre e post c d, es = pre ++ e :: post → e.click? = some (c, d) →
      d = .ofStreak (streak (c :: clicksOf pre))) ∧
    (∀ pre account c o post, es = pre ++ .sortAccount account c o :: post →
      ((∃ d, o = .ok d) ↔ account ∈ groups.map (·.account))) ∧
    (∀ account c, ((sortAccount account c).run s).1 =
      if account ∈ groups.map (·.account) then .ok (.ofStreak (streak (c :: clicksOf es)))
      else .error (.notFound (.group account s.wallet))) ∧
    ∀ e s', Move ε s e s' → e.click? ≠ none →
      List.Forall₂ (fun g g' : Group => g'.rows.Perm g.rows) s.groups s'.groups := by
  obtain ⟨⟨sizing, rfl⟩, htagged⟩ := hm.fetched
  have hload := arranged_load s₀ sizing groups
  have ha := h.arranged hload hfetch
  have hbefore : ∀ pre e post, es = pre ++ e :: post →
      ∃ s' s'', Arranged groups pre s' ∧ Move ε s' e s'' := by
    intro pre e post hes
    obtain ⟨s', s'', hpre, hmove⟩ := h.before hes
    have hpreFetch : ∀ groups, .fetch (.ok groups) ∉ pre := by
      intro groups hmem
      exact hfetch groups (by simp [hes, hmem])
    exact ⟨s', s'', hpre.arranged hload hpreFetch, hmove⟩
  refine ⟨ha.labels, ?_, ?_, ?_, ha.sortAccount, fun e s' hmove hk => hmove.change.moves_rows hk⟩
  · intro i g₀ g h₀ hg keys
    have hsorted := ha.outputs i g₀ g h₀ hg
    refine ⟨hsorted, hsorted.unique (stablySorted_mergeSort _), ?_⟩
    have hlabel : g.label = g₀.label := by
      have hi := congrArg (·[i]?) ha.labels
      rw [List.getElem?_map, List.getElem?_map, h₀, hg] at hi
      exact Option.some.inj hi
    have haccount : g.account = g₀.account := congrArg Prod.fst hlabel
    intro o ho
    rw [haccount]
    exact htagged g₀ (List.mem_of_getElem? h₀) o (hsorted.perm.mem_iff.mp ho)
  · intro pre e post c d hes hk
    obtain ⟨s', s'', hpre, hmove⟩ := hbefore pre e post hes
    exact hpre.direction hmove.change hk
  · intro pre account c o post hes
    obtain ⟨s', s'', hpre, hmove⟩ := hbefore pre _ post hes
    have ho : o = ((Selection.sortAccount account c).run s').1 := by
      cases hmove
      rfl
    rw [ho, hpre.sortAccount]
    by_cases hmem : account ∈ groups.map (·.account)
    · rw [if_pos hmem]
      exact iff_of_true ⟨_, rfl⟩ hmem
    · rw [if_neg hmem]
      exact iff_of_false nofun hmem

/-- A sort of everything and one of the first account, by two clicks on the amount; then a
sort of everything by depth, and one of an account that is not there. The last click has come
to either group, the second one to the first group only. -/
theorem Runs.sorted_by_clicks_sample :
    let s := ((Selection.sortAccount 9 .amount).run
      ((((Selection.sortAccount 0 .amount).run (Sample.tied.sort .amount).2).2).sort
        .confirmations).2).2
    s.groups.map Group.label = [(0, "a"), (1, "b")] ∧
    (∀ g, s.groups[0]? = some g → g.outputs.map (·.txid) = ["ac", "ab", "aa", "ad"]) ∧
    (∀ g, s.groups[1]? = some g → g.outputs.map (·.txid) = ["bb", "ba", "bc"]) ∧
    ((Selection.sortAccount 1 .confirmations).run s).1 = .ok .descending ∧
    ((Selection.sortAccount 9 .confirmations).run s).1 = .error (.notFound (.group 9 7)) := by
  intro s
  have hrun : Runs InMemoryEngine Sample.tied
      [.sort .amount .ascending, .sortAccount 0 .amount (.ok .descending),
        .sort .confirmations .ascending, .sortAccount 9 .amount (.error (.notFound (.group 9 7)))]
      s :=
    .step (.step (.step (.step .start (.sort _ .amount)) (.sortAccount _ 0 .amount))
      (.sort _ .confirmations)) (.sortAccount _ 9 .amount)
  obtain ⟨hlabels, hgroups, -, -, hanswer, -⟩ :=
    hrun.sorted_by_clicks (.of_run Sample.fetch_tied) (by simp)
  rw [Sample.groups_tied] at hlabels hgroups hanswer
  refine ⟨hlabels, fun g hg => ?_, fun g hg => ?_, hanswer 1 _, hanswer 9 _⟩
  · rw [(hgroups 0 _ g rfl hg).2.1]
    simp +decide [List.mergeSort, Group.outputs]
  · rw [(hgroups 1 _ g rfl hg).2.1]
    simp +decide [List.mergeSort, Group.outputs]

end Selection

end Purse
