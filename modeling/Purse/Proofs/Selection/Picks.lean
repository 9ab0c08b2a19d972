import Purse.Proofs.Selection.Steady

/-!
# The list of picks

What a selection keeps in flags, stamps, index and stage amounts to one list: the
picked outpoints in the order in which they were picked. `Event.onPicks` says what an
event does to this list, without looking at the selection, and `picksOf` what a whole
run does.

`Ordered` ties the stamps to the list: the newest stamp comes first, so the picks can
be read off backwards (`Ordered.picked`). A flag has to be in step with its stamp for a
pick to be a new one, which is where steady listings come in (`Change.ordered`).

Main statement: `Runs.refines_picks`, for runs in which every fetch loads distinct
outpoints.
-/

namespace Purse.Selection

variable {ε : Type} [Engine ε] {s s' : Selection} {p : OutPoint} {place : Place} {r : Row}
  {picks : List OutPoint}

/-! ## The plain model -/

/-- What an event does to the list of picks. -/
def Event.onPicks : Event → List OutPoint → List OutPoint
  | fetch (.ok _), _ => []
  | toggle p (.ok _), picks => if p ∈ picks then picks.erase p else picks ++ [p]
  | setSelected p true (.ok _), picks => if p ∈ picks then picks else picks ++ [p]
  | setSelected p false (.ok _), picks => picks.erase p
  | clear, _ => []
  | _, picks => picks

/-- The picks after a run, from those before it. -/
def picksFrom (picks : List OutPoint) (es : List Event) : List OutPoint :=
  es.foldl (fun picks e => e.onPicks picks) picks

/-- The picks after a run of a new selection. -/
def picksOf (es : List Event) : List OutPoint :=
  picksFrom [] es

theorem picksFrom_step (picks : List OutPoint) (es : List Event) (e : Event) :
    picksFrom picks (es ++ [e]) = e.onPicks (picksFrom picks es) := by
  unfold picksFrom
  rw [List.foldl_append, List.foldl_cons, List.foldl_nil]

/-- No failing operation touches the list. -/
theorem Event.Failed.onPicks {e : Event} (h : e.Failed) (picks : List OutPoint) :
    e.onPicks picks = picks := by
  cases e with
  | fetch o | toggle _ o | sortAccount _ _ o | submit o =>
    cases o with
    | error => rfl
    | ok => exact h.elim
  | setSelected p b o =>
    cases o with
    | error => cases b <;> rfl
    | ok => exact h.elim
  | sort | clear => exact h.elim

/-! ## Stamps -/

/-- The stamped outpoints are the picks, with greater stamps for later picks. -/
structure Ordered (s : Selection) (picks : List OutPoint) : Prop where
  keys : s.stamps.map (·.1) = picks.reverse
  newestFirst : s.stamps.Pairwise fun a b => b.2 < a.2
  used : ∀ e ∈ s.stamps, e.2 < s.nextStamp
  nodup : picks.Nodup

theorem Ordered.stamped_iff (ho : s.Ordered picks) : s.Stamped p ↔ p ∈ picks := by
  unfold Stamped
  rw [ho.keys, List.mem_reverse]

/-- No stamp is given twice. -/
theorem Ordered.eq_of_stamp (ho : s.Ordered picks) {a b : OutPoint × Nat} (ha : a ∈ s.stamps)
    (hb : b ∈ s.stamps) (h : a.2 = b.2) : a = b := by
  have hne : s.stamps.Pairwise fun a b => a.2 ≠ b.2 := ho.newestFirst.imp fun hlt => by omega
  exact List.inj_on_of_nodup_map (List.pairwise_map.mpr hne) ha hb h

/-- The picks in the order of their stamps are the list. -/
theorem Ordered.picked (ho : s.Ordered picks) : s.picked = picks := by
  have hperm : (s.stamps.mergeSort fun a b => a.2 ≤ b.2).Perm s.stamps := List.mergeSort_perm _ _
  have hsorted : (s.stamps.mergeSort fun a b => a.2 ≤ b.2).Pairwise fun a b => a.2 ≤ b.2 := by
    have h : (s.stamps.mergeSort fun a b => a.2 ≤ b.2).Pairwise
        fun a b => decide (a.2 ≤ b.2) = true :=
      List.pairwise_mergeSort (by intro a b c; simp; omega) (by intro a b; simp; omega) _
    exact h.imp of_decide_eq_true
  have hreverse : s.stamps.reverse.Pairwise fun a b => a.2 ≤ b.2 :=
    List.pairwise_reverse.mpr (ho.newestFirst.imp Nat.le_of_lt)
  -- stamps are distinct, so there is only one way to put them in order
  have heq : (s.stamps.mergeSort fun a b => a.2 ≤ b.2) = s.stamps.reverse := by
    refine List.Perm.eq_of_pairwise ?_ hsorted hreverse (hperm.trans s.stamps.reverse_perm.symm)
    intro a b ha hb hab hba
    exact ho.eq_of_stamp (hperm.mem_iff.mp ha) (List.mem_reverse.mp hb) (Nat.le_antisymm hab hba)
  unfold Selection.picked
  rw [heq, List.map_reverse, ho.keys, List.reverse_reverse]

theorem Ordered.length_stamps (ho : s.Ordered picks) : s.stamps.length = picks.length := by
  have hkeys := congrArg List.length ho.keys
  rwa [List.length_map, List.length_reverse] at hkeys

/-- A new pick comes last. -/
theorem Ordered.pick (ho : s.Ordered picks) (hp : p ∉ picks) :
    (s.mark p true place r).Ordered (picks ++ [p]) := by
  have hstamps : (s.mark p true place r).stamps = (p, s.nextStamp) :: s.stamps := by
    have hno : ∀ e ∈ s.stamps, e.1 ≠ p := by
      intro e he heq
      exact hp (ho.stamped_iff.mp (List.mem_map.mpr ⟨e, he, heq⟩))
    rw [mark_eq]
    show (p, s.nextStamp) :: s.stamps.filter _ = _
    rw [List.filter_eq_self.mpr (fun e he => decide_eq_true (hno e he))]
  have hnext : (s.mark p true place r).nextStamp = s.nextStamp + 1 := by
    rw [mark_eq]
    rfl
  constructor
  · rw [hstamps, List.map_cons, ho.keys, List.reverse_concat]
  · rw [hstamps]
    exact List.pairwise_cons.mpr ⟨ho.used, ho.newestFirst⟩
  · intro e he
    rw [hstamps] at he
    rw [hnext]
    rcases List.mem_cons.mp he with rfl | he
    · exact Nat.lt_succ_self _
    · exact Nat.lt_succ_of_lt (ho.used e he)
  · exact List.nodup_append.mpr ⟨ho.nodup, List.nodup_singleton p, by
      intro a ha b hb hab
      rw [List.mem_singleton] at hb
      exact hp (hb ▸ hab ▸ ha)⟩

/-- A pick that is taken back leaves the others in their order. -/
theorem Ordered.unpick (ho : s.Ordered picks) :
    (s.mark p false place r).Ordered (picks.erase p) := by
  have hstamps : (s.mark p false place r).stamps = s.stamps.filter fun e => e.1 ≠ p := by
    rw [mark_eq]
    rfl
  have hnext : (s.mark p false place r).nextStamp = s.nextStamp := by
    rw [mark_eq]
    rfl
  constructor
  · rw [hstamps, ho.nodup.erase_eq_filter, ← List.filter_reverse, ← ho.keys, List.filter_map]
    refine congrArg (List.map _) (List.filter_congr fun e _ => ?_)
    by_cases he : e.1 = p <;> simp [he]
  · rw [hstamps]
    exact ho.newestFirst.filter _
  · intro e he
    rw [hstamps] at he
    rw [hnext]
    exact ho.used e (List.mem_filter.mp he).1
  · exact ho.nodup.erase p

/-- Where stamps and their counter stay, so does the list. -/
theorem Ordered.of_stamps (ho : s.Ordered picks) (hs : s'.stamps = s.stamps)
    (hn : s'.nextStamp = s.nextStamp) : s'.Ordered picks := by
  refine ⟨by rw [hs]; exact ho.keys, by rw [hs]; exact ho.newestFirst, ?_, ho.nodup⟩
  rw [hs, hn]
  exact ho.used

/-- Without stamps there are no picks. -/
theorem ordered_nil (hs : s.stamps = []) : s.Ordered [] := by
  constructor
  · rw [hs]; rfl
  · rw [hs]; exact .nil
  · rw [hs]; exact fun _ h => absurd h List.not_mem_nil
  · exact .nil

/-- A flag that is turned over picks or takes back. -/
theorem Ordered.mark (ho : s.Ordered picks) (hf : s.Faithful) (h : s.found p = some (place, r)) :
    (s.mark p (!r.selected) place r).Ordered
      (if p ∈ picks then picks.erase p else picks ++ [p]) := by
  have hiff := (hf.selected_iff h).trans ho.stamped_iff
  cases hr : r.selected with
  | true =>
    rw [if_pos (hiff.mp hr)]
    exact ho.unpick
  | false =>
    have hp : p ∉ picks := fun hp => by simp [hiff.mpr hp] at hr
    rw [if_neg hp]
    exact ho.pick hp

/-- Every change does to the stamps what its event does to the list. -/
theorem Change.ordered {e : Event} (h : Change s e s') (hf : s.Faithful) (ho : s.Ordered picks) :
    s'.Ordered (e.onPicks picks) := by
  cases h with
  | failed he =>
    rw [he.onPicks]
    exact ho
  | load => exact ordered_nil rfl
  | @keep p place r hs hfound =>
    -- a flag that is up is in the list, one that is down is not
    have hiff := (hf.selected_iff hfound).trans ho.stamped_iff
    cases hr : r.selected with
    | true =>
      show s.Ordered (if p ∈ picks then picks else picks ++ [p])
      rw [if_pos (hiff.mp hr)]
      exact ho
    | false =>
      show s.Ordered (picks.erase p)
      rw [List.erase_of_not_mem (fun hp => by simp [hiff.mpr hp] at hr)]
      exact ho
  | @set p place r hs hfound =>
    have hiff := (hf.selected_iff hfound).trans ho.stamped_iff
    have hmark := ho.mark hf hfound
    cases hr : r.selected with
    | true =>
      rw [hr, if_pos (hiff.mp hr)] at hmark
      exact hmark
    | false =>
      have hp : p ∉ picks := fun hp => by simp [hiff.mpr hp] at hr
      rw [hr, if_neg hp] at hmark
      show (s.mark p true place r).Ordered (if p ∈ picks then picks else picks ++ [p])
      rw [if_neg hp]
      exact hmark
  | toggle hs hfound => exact ho.mark hf hfound
  | sort => exact ho.of_stamps rfl rfl
  | sortAccount => exact ho.of_stamps rfl rfl
  | clear => exact ordered_nil (by rw [clear_eq])
  | submit => exact ho.of_stamps rfl rfl

/-! ## The stage -/

/-- The stage tells whether outputs were ever loaded and whether any are picked. -/
structure Staged (es : List Event) (s : Selection) : Prop where
  empty_iff : s.stage = .empty ↔ ∀ groups, Event.fetch (.ok groups) ∉ es
  loaded : s.stage = .loaded → s.stamps = []
  picking : s.stage = .selecting ∨ s.stage = .submitted → s.stamps ≠ []

/-- An event that leaves stage and stamps leaves what the stage tells. -/
theorem Staged.of_stage {es : List Event} {e : Event} (h : Staged es s)
    (he : ∀ groups, e ≠ .fetch (.ok groups)) (hstage : s'.stage = s.stage)
    (hstamps : s'.stamps = s.stamps) : Staged (es ++ [e]) s' := by
  constructor
  · rw [hstage, h.empty_iff]
    refine forall_congr' fun groups => not_congr ?_
    simp only [List.mem_append, List.mem_singleton, (he groups).symm, or_false]
  · rw [hstage, hstamps]
    exact h.loaded
  · rw [hstage, hstamps]
    exact h.picking

theorem Staged.mark {es : List Event} {e : Event} (h : Staged es s) (hs : s.Editable)
    (selected : Bool) : Staged (es ++ [e]) (s.mark p selected place r) := by
  have hmark := stage_mark s p selected place r
  -- there has been a fetch, or nothing could be picked
  have hfetch : ¬∀ groups, Event.fetch (.ok groups) ∉ es := by
    rw [← h.empty_iff]
    rcases hs with hs | hs <;> simp [hs]
  have hfetch' : ¬∀ groups, Event.fetch (.ok groups) ∉ es ++ [e] := fun hno =>
    hfetch fun groups hmem => hno groups (List.mem_append_left _ hmem)
  generalize s.mark p selected place r = t at hmark
  cases hstamps : t.stamps with
  | nil =>
    rw [hstamps] at hmark
    have hmark : t.stage = .loaded := hmark
    exact ⟨iff_of_false (by simp [hmark]) hfetch', fun _ => hstamps, by simp [hmark]⟩
  | cons a rest =>
    rw [hstamps] at hmark
    have hmark : t.stage = .selecting := hmark
    exact ⟨iff_of_false (by simp [hmark]) hfetch', by simp [hmark], by simp [hstamps]⟩

theorem Change.staged {es : List Event} {e : Event} (h : Change s e s') (hst : Staged es s) :
    Staged (es ++ [e]) s' := by
  cases h with
  | failed he => exact hst.of_stage (by rintro groups rfl; exact he) rfl rfl
  | @load sizing groups =>
    refine ⟨iff_of_false (by simp [Selection.load]) fun hno => ?_, fun _ => rfl,
      by simp [Selection.load]⟩
    exact hno groups (by simp)
  | keep => exact hst.of_stage (by simp) rfl rfl
  | set hs => exact hst.mark hs _
  | toggle hs => exact hst.mark hs _
  | sort => exact hst.of_stage (by simp) rfl rfl
  | sortAccount => exact hst.of_stage (by simp) rfl rfl
  | clear =>
    have hempty : s.clear.stage = .empty ↔ s.stage = .empty := by
      rw [clear_eq]
      by_cases hs : s.stage = .empty <;> simp [hs]
    refine ⟨?_, fun _ => by rw [clear_eq], ?_⟩
    · rw [hempty, hst.empty_iff]
      simp
    · rw [clear_eq]
      by_cases hs : s.stage = .empty <;> simp [hs]
  | submit hs hp =>
    refine ⟨?_, by simp, fun _ => hp⟩
    have hne : s.stage ≠ .empty := by rcases hs with hs | hs <;> simp [hs]
    rw [ne_eq, hst.empty_iff] at hne
    simpa using hne

/-! ## Runs -/

/-- While every fetch loads a steady listing, flags, stamps and list are in step. -/
theorem Runs.in_step {s₀ : Selection} {es : List Event} (h : Runs ε s₀ es s) (hf : s₀.Faithful)
    (ho : s₀.Ordered picks) (hsteady : ∀ groups, Event.fetch (.ok groups) ∈ es → Steady groups) :
    s.Faithful ∧ s.Ordered (picksFrom picks es) := by
  refine h.keeps (P := fun es s => (∀ groups, Event.fetch (.ok groups) ∈ es → Steady groups) →
    s.Faithful ∧ s.Ordered (picksFrom picks es)) (fun _ => ⟨hf, ho⟩) ?_ hsteady
  intro es s e s' hc ih hsteady
  obtain ⟨hf, ho⟩ := ih fun groups hmem => hsteady groups (List.mem_append_left _ hmem)
  refine ⟨?_, picksFrom_step picks es e ▸ hc.ordered hf ho⟩
  -- a fetch brings it about anew, anything else keeps it
  by_cases he : ∃ groups, e = .fetch (.ok groups)
  · obtain ⟨groups, rfl⟩ := he
    cases hc with
    | failed he => exact he.elim
    | load hg => exact faithful_load (hsteady groups (by simp)) hg
  · exact hc.faithful hf fun groups heq => he ⟨groups, heq⟩

theorem Runs.staged {w : WalletId} {es : List Event} (h : Runs ε { wallet := w } es s) :
    Staged es s :=
  h.keeps (P := Staged) ⟨by simp, fun _ => rfl, by simp⟩ fun _ _ _ _ hc hst => hc.staged hst

theorem Runs.distinct {w : WalletId} {es : List Event} (h : Runs ε { wallet := w } es s)
    (hd : ∀ groups, Event.fetch (.ok groups) ∈ es → Distinct groups) : Distinct s.groups := by
  refine h.keeps (P := fun es s => (∀ groups, Event.fetch (.ok groups) ∈ es → Distinct groups) →
    Distinct s.groups) (fun _ => List.nodup_nil) ?_ hd
  intro es s e s' hc ih hd
  by_cases he : ∃ groups, e = .fetch (.ok groups)
  · obtain ⟨groups, rfl⟩ := he
    cases hc with
    | failed he => exact he.elim
    | load => exact hd groups (by simp)
  · have hcontents := hc.contents fun groups heq => he ⟨groups, heq⟩
    exact (ih fun groups hmem => hd groups (List.mem_append_left _ hmem)).of_contents hcontents

/-- A new selection has nothing to keep in step. -/
theorem faithful_new (w : WalletId) : ({ wallet := w } : Selection).Faithful :=
  faithful_of_unpicked (steady_of_distinct List.nodup_nil) (indexed_new w) (latest_indexGroups rfl)
    (fun _ h => absurd h List.not_mem_nil) rfl

/-- A stamped outpoint stands for the output of a row that has it. -/
theorem Faithful.output? (hf : s.Faithful) (hp : s.Stamped p) :
    ∃ r ∈ s.rows, r.point = p ∧ s.output? p = some r.output := by
  obtain ⟨place, r, hfound⟩ := hf.indexed.found (hf.loaded p hp)
  exact ⟨r, mem_rows_iff.mpr ⟨place, (found_eq_some hfound).2⟩, hf.indexed.point_of_found hfound,
    output?_of_found hfound⟩

theorem forall₂_filterMap {α β : Type} {f : α → Option β} {R : α → β → Prop} {l : List α}
    (h : ∀ a ∈ l, ∃ b, f a = some b ∧ R a b) : List.Forall₂ R l (l.filterMap f) := by
  induction l with
  | nil => exact .nil
  | cons a l ih =>
    obtain ⟨b, hb, hR⟩ := h a List.mem_cons_self
    rw [List.filterMap_cons_some hb]
    exact .cons hR (ih fun c hc => h c (List.mem_cons_of_mem _ hc))

/-- The picked outputs are those of the list in its order. -/
theorem Faithful.forall₂_selectedOutputs (hf : s.Faithful) (ho : s.Ordered picks) :
    List.Forall₂ (fun p o => ∃ r ∈ s.rows, r.point = p ∧ r.output = o) picks s.selectedOutputs := by
  unfold selectedOutputs
  rw [ho.picked]
  refine forall₂_filterMap fun p hp => ?_
  obtain ⟨r, hr, hrp, hout⟩ := hf.output? (ho.stamped_iff.mpr hp)
  exact ⟨r.output, hout, r, hr, hrp, rfl⟩

/-- Of distinct outpoints exactly the stamped ones are flagged. -/
theorem Faithful.selected_iff_of_distinct (hf : s.Faithful) (hd : Distinct s.groups)
    (hr : r ∈ s.rows) : r.selected = true ↔ s.Stamped r.point := by
  have hfilter : s.rows.filter (·.point = r.point) = [r] := by
    obtain ⟨l, l', hl⟩ := List.append_of_mem hr
    unfold Distinct at hd
    have hrows : s.groups.flatMap (·.rows) = l ++ r :: l' := hl
    rw [hrows, List.map_append, List.map_cons, List.nodup_middle, List.nodup_cons,
      ← List.map_append] at hd
    have hno : ∀ x ∈ l ++ l', x.point ≠ r.point := fun x hx hxp =>
      hd.1 (List.mem_map.mpr ⟨x, hx, hxp⟩)
    rw [hl, List.filter_append, List.filter_cons_of_pos (by simp),
      filter_point_eq_nil.mpr fun x hx => hno x (List.mem_append_left _ hx),
      filter_point_eq_nil.mpr fun x hx => hno x (List.mem_append_right _ hx), List.nil_append]
  exact (hf.flags r.point [] r hfilter).2

/-- A loaded outpoint can be picked and taken back while picks can be made. -/
theorem Faithful.verdicts (hf : s.Faithful) (ho : s.Ordered picks) (hr : r ∈ s.rows)
    (hs : s.Editable) :
    ((toggle r.point).run s).1 = .ok (decide (r.point ∉ picks)) ∧
      ∀ selected, ((setSelected r.point selected).run s).1 = .ok () := by
  obtain ⟨place, row, hfound⟩ := hf.indexed.found ⟨r, hr, rfl⟩
  have hiff := (hf.selected_iff hfound).trans ho.stamped_iff
  refine ⟨?_, fun selected => ?_⟩
  · rw [toggle_run, whenFound_of_found hs hfound]
    refine congrArg Except.ok ?_
    rw [decide_not, ← Bool.decide_coe row.selected]
    exact congrArg (!·) (decide_eq_decide.mpr hiff)
  · rw [setSelected_run, whenFound_of_found hs hfound]

/-- While every fetch loads distinct outpoints, a selection is its list of picks: the
picked outputs are those of the list in its order, their number is its length, exactly
its outpoints are flagged, a pick that can be made is made, and the stage tells whether
there has been a fetch and whether the list is empty. -/
theorem Runs.refines_picks {w : WalletId} {es : List Event} (h : Runs ε { wallet := w } es s)
    (hd : ∀ groups, Event.fetch (.ok groups) ∈ es → Distinct groups) :
    List.Forall₂ (fun p o => ∃ r ∈ s.rows, r.point = p ∧ r.output = o) (picksOf es)
      s.selectedOutputs ∧
    s.summary.count = (picksOf es).length ∧
    (∀ r ∈ s.rows, r.selected = true ↔ r.point ∈ picksOf es) ∧
    (∀ r ∈ s.rows, s.Editable →
      ((toggle r.point).run s).1 = .ok (decide (r.point ∉ picksOf es)) ∧
        ∀ selected, ((setSelected r.point selected).run s).1 = .ok ()) ∧
    (s.stage = .empty ↔ ∀ groups, Event.fetch (.ok groups) ∉ es) ∧
    (s.stage = .loaded → picksOf es = []) ∧
    (s.stage = .selecting ∨ s.stage = .submitted → picksOf es ≠ []) := by
  obtain ⟨hf, ho⟩ := h.in_step (faithful_new w) (ordered_nil rfl)
    fun groups hmem => steady_of_distinct (hd groups hmem)
  have hdistinct := h.distinct hd
  have hstaged := h.staged
  have hnil : s.stamps = [] ↔ picksOf es = [] := by
    rw [← List.length_eq_zero_iff, ho.length_stamps, List.length_eq_zero_iff]
    rfl
  refine ⟨hf.forall₂_selectedOutputs ho, ho.length_stamps, ?_, ?_, hstaged.empty_iff, ?_, ?_⟩
  · intro r hr
    exact (hf.selected_iff_of_distinct hdistinct hr).trans ho.stamped_iff
  · intro r hr hs
    exact hf.verdicts ho hr hs
  · exact fun hs => hnil.mp (hstaged.loaded hs)
  · exact fun hs hp => hstaged.picking hs (hnil.mpr hp)

/-- An output of the second account is picked, then one of the first; the first pick is taken
back and made again, and everything is sorted. Of the two the one that was picked again comes
last. -/
theorem Runs.refines_picks_sample :
    let aa : OutPoint := ⟨"aa", 0⟩
    let bb : OutPoint := ⟨"bb", 0⟩
    let s := ((((toggle bb).run ((toggle bb).run ((toggle aa).run
      ((toggle bb).run Sample.tied).2).2).2).2).sort .amount).2
    s.selectedOutputs.map (·.toOutPoint) = [aa, bb] ∧ s.summary.count = 2 ∧
      (∀ r ∈ s.rows, r.selected = true ↔ r.point ∈ [aa, bb]) ∧ s.stage = .selecting := by
  intro aa bb s
  have hfirst : Runs InMemoryEngine { wallet := 7 } (_ ++ [.toggle bb (.ok true)]) _ :=
    .step (.of_run Sample.fetch_tied) (.toggle _ bb)
  have hsecond : Runs InMemoryEngine { wallet := 7 } (_ ++ [.toggle aa (.ok true)]) _ :=
    .step hfirst (.toggle _ aa)
  have hback : Runs InMemoryEngine { wallet := 7 } (_ ++ [.toggle bb (.ok false)]) _ :=
    .step hsecond (.toggle _ bb)
  have hagain : Runs InMemoryEngine { wallet := 7 } (_ ++ [.toggle bb (.ok true)]) _ :=
    .step hback (.toggle _ bb)
  have hrun : Runs InMemoryEngine { wallet := 7 } _ s := .step hagain (.sort _ .amount)
  obtain ⟨houtputs, hcount, hflags, -⟩ := hrun.refines_picks fun groups hmem => by
    obtain rfl : groups = Sample.tied.groups := by simpa using hmem
    rw [Distinct, Sample.groups_tied]
    decide
  have hpicked : List.Forall₂ (fun p o => p = o.toOutPoint) [aa, bb] s.selectedOutputs := by
    refine houtputs.imp fun p o ho => ?_
    obtain ⟨r, -, rfl, rfl⟩ := ho
    rfl
  rw [← List.forall₂_map_right_iff, List.forall₂_eq_eq_eq] at hpicked
  exact ⟨hpicked.symm, hcount, hflags, by rfl⟩

end Purse.Selection
