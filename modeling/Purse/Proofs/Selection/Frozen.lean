import Purse.Proofs.Selection.Size

/-!
# Submitted selections are frozen

After its hand-over a selection can still be sorted and loaded anew. A sort moves rows and
makes the index, through which the picked outputs are read, anew or in part; but it leaves
stamps and sums alone and takes the flags along with the rows. `Frozen` is what is left of
such changes: stage, stamps and sums are the same, and the rows are the same up to their
order. As long as outpoints are distinct, an outpoint then stands for the same output as
before (`Frozen.selectedOutputs`), wherever its row has gone.

Main statement: `Runs.frozen_after_submit`.
-/

namespace Purse.Selection

variable {ε : Type} [Engine ε] {s s' s'' : Selection} {p : OutPoint} {picks : List OutPoint}

/-- One selection is the other with its rows in another order, perhaps. -/
structure Frozen (s s' : Selection) : Prop where
  stage : s'.stage = s.stage
  stamps : s'.stamps = s.stamps
  amount : s'.amount = s.amount
  size : s'.size = s.size
  rows : s'.rows.Perm s.rows

theorem Frozen.refl (s : Selection) : Frozen s s :=
  ⟨rfl, rfl, rfl, rfl, .refl _⟩

theorem Frozen.trans (h : Frozen s s') (h' : Frozen s' s'') : Frozen s s'' :=
  ⟨h'.stage.trans h.stage, h'.stamps.trans h.stamps, h'.amount.trans h.amount,
    h'.size.trans h.size, h'.rows.trans h.rows⟩

/-- After a hand-over there are only failures and sorts, until the selection is cleared or
loaded anew. -/
theorem Change.frozen {e : Event} (h : Change s e s') (hs : s.stage = .submitted)
    (hclear : e ≠ .clear) (hfetch : ∀ groups, e ≠ .fetch (.ok groups)) : Frozen s s' := by
  have hlocked : ¬s.Editable := by
    unfold Editable
    simp [hs]
  cases h with
  | failed => exact .refl s
  | load => exact absurd rfl (hfetch _)
  | keep he | set he | toggle he | submit he => exact absurd he hlocked
  | sort => exact ⟨rfl, rfl, rfl, rfl, rows_sort_perm s _⟩
  | sortAccount hg => exact ⟨rfl, rfl, rfl, rfl, rows_sortGroup_perm hg _⟩
  | clear => exact absurd rfl hclear

/-! ## What can be read of it -/

theorem Frozen.flagged (h : Frozen s s') : s'.flagged.Perm s.flagged :=
  h.rows.filter _

theorem Frozen.distinct (h : Frozen s s') (hd : Distinct s.groups) : Distinct s'.groups :=
  (h.rows.map Row.point).nodup_iff.mpr hd

/-- The outpoints are picked in the same order as before. -/
theorem Frozen.picked (h : Frozen s s') : s'.picked = s.picked := by
  unfold Selection.picked
  rw [h.stamps]

/-- A stamped outpoint stands for the same output as before. -/
theorem Frozen.output? (h : Frozen s s') (hd : Distinct s.groups) (hf : s.Faithful)
    (hf' : s'.Faithful) (hp : s.Stamped p) : s'.output? p = s.output? p := by
  have hp' : s'.Stamped p := by
    unfold Stamped
    rw [h.stamps]
    exact hp
  obtain ⟨r, hr, hrp, hout⟩ := hf.output? hp
  obtain ⟨r', hr', hrp', hout'⟩ := hf'.output? hp'
  -- both rows are among those of before, where there is only one with this outpoint
  have hsame : r' = r :=
    List.inj_on_of_nodup_map hd (h.rows.mem_iff.mp hr') hr (hrp'.trans hrp.symm)
  rw [hout, hout', hsame]

theorem Frozen.selectedOutputs (h : Frozen s s') (hd : Distinct s.groups) (hf : s.Faithful)
    (hf' : s'.Faithful) (ho : s.Ordered picks) : s'.selectedOutputs = s.selectedOutputs := by
  unfold Selection.selectedOutputs
  rw [h.picked, ho.picked]
  exact List.filterMap_congr fun p hp => h.output? hd hf hf' (ho.stamped_iff.mpr hp)

/-! ## Runs -/

/-- Whatever has been loaded before, flags, stamps and list of picks are in step while the
outpoints are distinct. -/
theorem Runs.in_step_of_distinct {w : WalletId} {es : List Event}
    (h : Runs ε { wallet := w } es s) (hd : Distinct s.groups) :
    s.Faithful ∧ ∃ picks, s.Ordered picks := by
  refine h.keeps (P := fun _ s => Distinct s.groups → s.Faithful ∧ ∃ picks, s.Ordered picks)
    (fun _ => ⟨faithful_new w, [], ordered_nil rfl⟩) ?_ hd
  intro es s e s' hc ih hd
  by_cases he : ∃ groups, e = .fetch (.ok groups)
  · obtain ⟨groups, rfl⟩ := he
    cases hc with
    | failed he => exact he.elim
    | load hg => exact ⟨faithful_load (steady_of_distinct hd) hg, [], ordered_nil rfl⟩
  · -- anything else leaves what is listed, so it was distinct before
    have hne : ∀ groups, e ≠ .fetch (.ok groups) := fun groups heq => he ⟨groups, heq⟩
    obtain ⟨hf, picks, ho⟩ := ih (hd.of_contents (hc.contents hne).symm)
    exact ⟨hc.faithful hf hne, _, hc.ordered hf ho⟩

/-- Runs without a clearing and without a successful fetch leave a submitted selection
frozen. -/
theorem Runs.frozen {es : List Event} (h : Runs ε s es s') (hs : s.stage = .submitted)
    (hf : s.Faithful) (hclear : .clear ∉ es) (hfetch : ∀ groups, .fetch (.ok groups) ∉ es) :
    Frozen s s' ∧ s'.Faithful := by
  refine h.keeps (P := fun es s' => .clear ∉ es → (∀ groups, .fetch (.ok groups) ∉ es) →
    Frozen s s' ∧ s'.Faithful) (fun _ _ => ⟨.refl s, hf⟩) ?_ hclear hfetch
  intro es s₁ e s₂ hc ih hclear hfetch
  simp only [List.mem_append, List.mem_singleton, not_or] at hclear hfetch
  obtain ⟨hfrozen, hf₁⟩ := ih hclear.1 fun groups => (hfetch groups).1
  have hnoClear : e ≠ .clear := fun heq => hclear.2 heq.symm
  have hnoFetch : ∀ groups, e ≠ .fetch (.ok groups) := fun groups heq => (hfetch groups).2 heq.symm
  have hstage : s₁.stage = .submitted := hfrozen.stage.trans hs
  exact ⟨hfrozen.trans (hc.frozen hstage hnoClear hnoFetch), hc.faithful hf₁ hnoFetch⟩

/-- Once a selection of distinct outpoints has been handed over, it stays so in any run
without a clearing and without a successful fetch: nothing can be picked, taken back or
handed over any more, its summary is that of what was handed over, the picked outputs are
those that were handed over in the same order, and the same outpoints are flagged. -/
theorem Runs.frozen_after_submit {w : WalletId} {es es' : List Event} {s₁ : Selection}
    {handed : Submission} (h : Runs ε { wallet := w } es s) (hd : Distinct s.groups)
    (hsubmit : submit.run s = (.ok handed, s₁)) (h' : Runs ε s₁ es' s') (hclear : .clear ∉ es')
    (hfetch : ∀ groups, .fetch (.ok groups) ∉ es') :
    s'.stage = .submitted ∧
    (∀ p, (toggle p).run s' = (.error (.invalidState .alreadySubmitted), s')) ∧
    (∀ p b, (setSelected p b).run s' = (.error (.invalidState .alreadySubmitted), s')) ∧
    submit.run s' = (.error (.invalidState .alreadySubmitted), s') ∧
    s'.summary = ⟨handed.outputs.length, handed.total, handed.size⟩ ∧
    s'.selectedOutputs = handed.outputs ∧
    ∀ p, p ∈ s'.flagged.map (·.point) ↔ p ∈ s.flagged.map (·.point) := by
  obtain ⟨hf, picks, ho⟩ := h.in_step_of_distinct hd
  rcases s.submit_run with ⟨⟨f, hrefused⟩, -⟩ | ⟨-, hrun⟩
  · rw [hrefused] at hsubmit
    cases hsubmit
  · cases hsubmit.symm.trans hrun
    -- to hand over changes the stage only
    have hf₁ : ({ s with stage := .submitted } : Selection).Faithful :=
      ⟨hf.steady, hf.indexed.of_points rfl fun _ => rfl, hf.latest.of_points rfl fun _ => rfl,
        hf.loaded, hf.flags⟩
    obtain ⟨hfrozen, hf'⟩ := h'.frozen rfl hf₁ hclear hfetch
    have hstage : s'.stage = .submitted := hfrozen.stage
    have hwhen : ∀ {α : Type} (p : OutPoint) (f : Place → Row → Outcome α × Selection),
        s'.whenFound p f = (.error (.invalidState .alreadySubmitted), s') := by
      intro α p f
      unfold whenFound
      rw [hstage]
    have hcount : s'.stamps.length = s.selectedOutputs.length := by
      have hstamps : s'.stamps = s.stamps := hfrozen.stamps
      rw [hstamps, ho.length_stamps, (hf.forall₂_selectedOutputs ho).length_eq]
    have hsame : s'.selectedOutputs = s.selectedOutputs :=
      hfrozen.selectedOutputs hd hf₁ hf' (ho.of_stamps rfl rfl)
    refine ⟨hstage, fun p => ?_, fun p b => ?_, ?_, ?_, hsame, fun p => ?_⟩
    · rw [toggle_run, hwhen]
    · rw [setSelected_run, hwhen]
    · unfold submit
      rw [Step.run_bind, ensureEditable_run, hstage]
    · unfold summary
      rw [hcount, hfrozen.amount, hfrozen.size]
    · exact (hfrozen.flagged.map (·.point)).mem_iff

/-- Two picks that are handed over, and two sorts after that. -/
theorem Runs.frozen_after_submit_bitcoin :
    let s := ((toggle ⟨"aa", 0⟩).run ((toggle ⟨"bb", 0⟩).run Sample.bitcoinLoaded).2).2
    let s₁ := (submit.run s).2
    let s' := ((sortAccount 0 .address).run (s₁.sort .amount).2).2
    s'.stage = .submitted ∧ s'.selectedOutputs = s.selectedOutputs ∧
      s'.summary = ⟨s.selectedOutputs.length, 100000000, .bytes (10 + 34 * 2 + 68 + 148)⟩ := by
  intro s s₁ s'
  have hrun : Runs InMemoryEngine { wallet := 7 } _ s :=
    .step (.step Sample.runs_bitcoinLoaded (.toggle _ ⟨"bb", 0⟩)) (.toggle _ ⟨"aa", 0⟩)
  have hpoints : s.rows.map Row.point = [⟨"aa", 0⟩, ⟨"bb", 0⟩] := by rfl
  have hdistinct : Distinct s.groups := by
    show (s.rows.map Row.point).Nodup
    rw [hpoints]
    decide
  have hsubmit : submit.run s = (.ok ⟨s.wallet, s.selectedOutputs, s.amount, s.size⟩, s₁) := by rfl
  have hsorts : Runs InMemoryEngine s₁ _ s' :=
    .step (.step .start (.sort _ .amount)) (.sortAccount _ 0 .address)
  obtain ⟨hstage, -, -, -, hsummary, houtputs, -⟩ :=
    hrun.frozen_after_submit hdistinct hsubmit hsorts (by simp) (by simp)
  exact ⟨hstage, houtputs, hsummary⟩

end Purse.Selection
