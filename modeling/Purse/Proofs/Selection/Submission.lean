import Purse.Proofs.Selection.Picks

/-!
# What is handed over

A submission is consistent if its total is the sum over its outputs and its outputs
are those of the flagged rows. The total is carried along row by row, the outputs are
read off the stamps, so the two agree only while flags and stamps are in step.

After a fetch of a steady listing they are, whatever follows
(`Faithful.consistent`). After a fetch of any other listing they need not be: one
output is picked, a sort makes the index point at another row with its outpoint, and a
second pick raises that row's flag too and counts its amount again, while the stamps
still hold one outpoint (`Consistently.apart`, `Consistently.ties`). Both directions
together are `Runs.submissions_consistent_iff`.
-/

namespace Purse

/-- The total is the sum over the outputs, and the outputs are those of the flagged
rows, each once. -/
structure Submission.Consistent (sub : Submission) (s : Selection) : Prop where
  total : sub.total = (sub.outputs.map fun o => o.amount.toNat).sum
  outputs : sub.outputs.Perm (s.flagged.map (·.output))
  count : sub.outputs.length = s.summary.count

namespace Selection

variable {ε : Type} [Engine ε] {s s' s₁ : Selection} {p : OutPoint} {place : Place} {r : Row}
  {picks : List OutPoint} {pre post : List Group} {g : Group} {c : Column} {d : Direction}

/-! ## Flags and stamps in step -/

/-- A flagged row is the one that the index finds for its outpoint. -/
theorem Faithful.eq_of_flagged (hf : s.Faithful) (h : s.found p = some (place, r)) {x : Row}
    (hx : x ∈ s.flagged) (hp : x.point = p) : x = r := by
  obtain ⟨hlast, rfl⟩ := hf.latest.isLast hf.indexed h
  obtain ⟨pre, g, post, above, below, hst, hbelow, hpost⟩ := hlast.stands
  have hfilter := hst.filter_rows hbelow hpost
  obtain ⟨hmem, hsel⟩ := List.mem_filter.mp hx
  have hxp : x ∈ s.rows.filter (·.point = r.point) :=
    List.mem_filter.mpr ⟨hmem, decide_eq_true hp⟩
  rw [hfilter] at hxp
  rcases List.mem_append.mp hxp with hinit | hlast
  · have hno := (hf.flags r.point _ r hfilter).1 x hinit
    rw [hsel] at hno
    cases hno
  · exact List.mem_singleton.mp hlast

/-- Of every outpoint as many rows are flagged as it is stamped, one or none. -/
theorem Faithful.count_flagged (hf : s.Faithful) (p : OutPoint) [Decidable (s.Stamped p)] :
    (s.flagged.map (·.point)).count p = if s.Stamped p then 1 else 0 := by
  have hcount : (s.flagged.map (·.point)).count p =
      ((s.rows.filter (·.point = p)).filter (·.selected)).length := by
    unfold flagged
    rw [List.count_eq_countP, List.countP_map, List.countP_eq_length_filter, List.filter_filter,
      List.filter_filter]
    refine congrArg List.length (List.filter_congr fun x _ => ?_)
    by_cases hx : x.point = p <;> simp [hx]
  rw [hcount]
  rcases List.eq_nil_or_concat (s.rows.filter (·.point = p)) with hnil | ⟨init, x, hrows⟩
  · have hno : ¬s.Stamped p := by
      intro hp
      obtain ⟨x, hx, hxp⟩ := hf.loaded p hp
      exact filter_point_eq_nil.mp hnil x hx hxp
    rw [hnil, if_neg hno]
    rfl
  · rw [List.concat_eq_append] at hrows
    obtain ⟨hinit, hflag⟩ := hf.flags p init x hrows
    have hnil : init.filter (·.selected) = [] := by
      refine List.filter_eq_nil_iff.mpr fun y hy => ?_
      rw [hinit y hy]
      decide
    rw [hrows, List.filter_append, hnil]
    by_cases hp : s.Stamped p
    · rw [if_pos hp, List.filter_cons_of_pos (hflag.mpr hp)]
      rfl
    · rw [if_neg hp, List.filter_cons_of_neg (fun hx => hp (hflag.mp hx))]
      rfl

/-- The picked outputs are those of the flagged rows. -/
theorem Faithful.selectedOutputs_perm (hf : s.Faithful) (ho : s.Ordered picks) :
    s.selectedOutputs.Perm (s.flagged.map (·.output)) := by
  have hpoints : picks.Perm (s.flagged.map (·.point)) := by
    classical
    refine List.perm_iff_count.mpr fun p => ?_
    rw [hf.count_flagged, ho.nodup.count]
    simp only [ho.stamped_iff]
  have houtputs : (s.flagged.map (·.point)).filterMap s.output? = s.flagged.map (·.output) := by
    rw [List.filterMap_map, ← List.filterMap_eq_map]
    refine List.filterMap_congr fun x hx => ?_
    have hp : s.Stamped x.point := ho.stamped_iff.mpr (hpoints.mem_iff.mpr (List.mem_map_of_mem hx))
    obtain ⟨place, r, hfound⟩ := hf.indexed.found (hf.loaded x.point hp)
    have hxr := hf.eq_of_flagged hfound hx rfl
    show s.output? x.point = some x.output
    rw [output?_of_found hfound, hxr]
  unfold selectedOutputs
  rw [ho.picked, ← houtputs]
  exact hpoints.filterMap _

/-- What is handed over while flags and stamps are in step is consistent. -/
theorem Faithful.consistent (hf : s.Faithful) (ho : s.Ordered picks) (hb : s.Balanced) :
    Submission.Consistent ⟨s.wallet, s.selectedOutputs, s.amount, s.size⟩ s := by
  have hperm := hf.selectedOutputs_perm ho
  refine ⟨?_, hperm, ?_⟩
  · show s.amount = (s.selectedOutputs.map fun o => o.amount.toNat).sum
    rw [hb.amount, (hperm.map fun o => o.amount.toNat).sum_nat, List.map_map]
    rfl
  · show s.selectedOutputs.length = s.stamps.length
    rw [ho.length_stamps, (hf.forall₂_selectedOutputs ho).length_eq]

/-! ## Flags and stamps out of step -/

/-- Two ways to take a list apart at an element are the same, or the element of one is
among those before that of the other. -/
theorem append_cons_cases {α : Type} {pre pre' post post' : List α} {a a' : α}
    (h : pre' ++ a' :: post' = pre ++ a :: post) :
    (pre' = pre ∧ a' = a ∧ post' = post) ∨ (a' ∈ pre ∧ a ∈ post') ∨ (a ∈ pre' ∧ a' ∈ post) := by
  induction pre' generalizing pre with
  | nil =>
    cases pre with
    | nil =>
      obtain ⟨rfl, rfl⟩ := List.cons.inj h
      exact Or.inl ⟨rfl, rfl, rfl⟩
    | cons b pre =>
      obtain ⟨rfl, rfl⟩ := List.cons.inj h
      exact Or.inr (Or.inl ⟨List.mem_cons_self, by simp⟩)
  | cons b pre' ih =>
    cases pre with
    | nil =>
      obtain ⟨rfl, rfl⟩ := List.cons.inj h
      exact Or.inr (Or.inr ⟨List.mem_cons_self, by simp⟩)
    | cons b' pre =>
      obtain ⟨rfl, htail⟩ := List.cons.inj h
      rcases ih htail with ⟨rfl, rfl, rfl⟩ | ⟨hpre, hpost⟩ | ⟨hpre, hpost⟩
      · exact Or.inl ⟨rfl, rfl, rfl⟩
      · exact Or.inr (Or.inl ⟨List.mem_cons_of_mem _ hpre, hpost⟩)
      · exact Or.inr (Or.inr ⟨List.mem_cons_of_mem _ hpre, hpost⟩)

theorem length_selectedOutputs_le (s : Selection) : s.selectedOutputs.length ≤ s.stamps.length := by
  unfold selectedOutputs picked
  refine (List.length_filterMap_le _ _).trans ?_
  rw [List.length_map, List.length_mergeSort]

/-- A pick of an unflagged row raises one more flag. -/
theorem length_flagged_mark (hr : s.row? place = some r) (hsel : r.selected = false) :
    (s.mark p true place r).flagged.length = s.flagged.length + 1 := by
  have hlength : ∀ t : Selection, t.flagged.length = weight (fun _ => 1) t.rows := by
    intro t
    unfold flagged weight
    simp
  have hmark : (s.mark p true place r).rows =
      (s.modifyRow place fun r' => { r' with selected := !r.selected }).rows := by
    rw [rows_mark, hsel, Bool.not_false]
  rw [hlength, hlength, hmark, weight_modifyRow _ hr, hsel]
  rfl

/-- Every hand-over before the next fetch is consistent. -/
def Consistently (ε : Type) [Engine ε] (s : Selection) : Prop :=
  ∀ es s' sub s'', Runs ε s es s' → (∀ groups, Event.fetch (.ok groups) ∉ es) →
    Move ε s' (.submit (.ok sub)) s'' → sub.Consistent s'

/-- One row is flagged, one outpoint is stamped. -/
structure One (p : OutPoint) (s : Selection) : Prop where
  stage : s.stage = .selecting
  flagged : s.flagged.length = 1
  stamps : ∃ n, s.stamps = [(p, n)]

/-- If the index then finds a row that is not flagged, a second pick spoils the next
hand-over. -/
theorem Consistently.selected_of_found (hc : Consistently ε s) {es : List Event}
    (h : Runs ε s es s') (hes : ∀ groups, Event.fetch (.ok groups) ∉ es) (hone : One p s')
    (hfound : s'.found p = some (place, r)) : r.selected = true := by
  by_contra hsel
  have hsel : r.selected = false := by simpa using hsel
  obtain ⟨n, hstamps⟩ := hone.stamps
  have htoggle : (toggle p).run s' = (.ok true, s'.mark p true place r) := by
    rw [toggle_run, whenFound_of_found (Or.inr hone.stage) hfound, hsel]
    rfl
  have hstep := h.step (.toggle s' p)
  rw [htoggle] at hstep
  have hstamps' : (s'.mark p true place r).stamps = [(p, s'.nextStamp)] := by
    rw [mark_eq]
    show Keyed.insert p s'.nextStamp s'.stamps = _
    rw [hstamps]
    simp [Keyed.insert, Keyed.erase]
  have hstage : (s'.mark p true place r).stage = .selecting := by
    rw [stage_mark, hstamps']
    rfl
  -- now two rows are flagged, but there is one stamp
  have hflagged := length_flagged_mark (p := p) (found_eq_some hfound).2 hsel
  rw [hone.flagged] at hflagged
  have hle := length_selectedOutputs_le (s'.mark p true place r)
  rw [hstamps', List.length_singleton] at hle
  have hmove := Move.submit (ε := ε) (s'.mark p true place r)
  generalize s'.mark p true place r = t at *
  rcases t.submit_run with ⟨-, hno⟩ | ⟨-, hrun⟩
  · exact hno ⟨Or.inr hstage, by simp [hstamps']⟩
  · rw [hrun] at hmove
    have hsub := hc _ _ _ _ hstep (by simpa using hes) hmove
    have hlength := hsub.outputs.length_eq
    rw [List.length_map, hflagged] at hlength
    have hlength : t.selectedOutputs.length = 2 := hlength
    omega

/-- Outputs have just been loaded. -/
structure Fresh (s : Selection) : Prop where
  stage : s.stage = .loaded
  stamps : s.stamps = []
  unpicked : ∀ x ∈ s.rows, x.selected = false
  tracker : s.tracker = {}
  indexed : s.Indexed
  latest : s.Latest

theorem fresh_load {sizing : Sizing} {groups : List Group} (hg : ∀ g ∈ groups, g.Unpicked) :
    (s.load sizing groups).Fresh := by
  exact ⟨rfl, rfl, selected_load hg, rfl, indexed_indexGroups rfl, latest_indexGroups rfl⟩

/-- The first pick flags the last row with the outpoint. -/
theorem Fresh.toggle (hs : s.Fresh) (hp : ∃ x ∈ s.rows, x.point = p) :
    ∃ place r, s.IsLast place r ∧ r.point = p ∧ One p (s.mark p true place r) ∧
      Runs ε s [.toggle p (.ok true)] (s.mark p true place r) := by
  obtain ⟨place, r, hfound⟩ := hs.indexed.found hp
  obtain ⟨hlast, hrp⟩ := hs.latest.isLast hs.indexed hfound
  have hsel : r.selected = false := hs.unpicked r (mem_rows_iff.mpr ⟨place, hlast.1⟩)
  refine ⟨place, r, hlast, hrp, ⟨?_, ?_, s.nextStamp, ?_⟩, ?_⟩
  · rw [mark_eq]
    rfl
  · have hnone : s.flagged = [] := by
      refine List.filter_eq_nil_iff.mpr fun x hx => ?_
      rw [hs.unpicked x hx]
      decide
    rw [length_flagged_mark hlast.1 hsel, hnone]
    rfl
  · rw [mark_eq]
    show Keyed.insert p s.nextStamp s.stamps = _
    rw [hs.stamps]
    rfl
  · have hrun : (Selection.toggle p).run s = (.ok true, s.mark p true place r) := by
      rw [toggle_run, whenFound_of_found (Or.inl hs.stage) hfound, hsel]
      rfl
    have hmove := Move.toggle (ε := ε) s p
    rw [hrun] at hmove
    exact .step .start hmove

theorem One.resorted (h : One p s) (hperm : s'.rows.Perm s.rows) (hstage : s'.stage = s.stage)
    (hstamps : s'.stamps = s.stamps) : One p s' := by
  refine ⟨hstage.trans h.stage, ?_, by rw [hstamps]; exact h.stamps⟩
  rw [← h.flagged]
  exact (hperm.filter _).length_eq

/-- The first group of an account is the same by contents as it was. -/
theorem first_of_contents {groups groups' pre' post' : List Group} {g' : Group}
    (h : groups'.map Group.contents = groups.map Group.contents)
    (hg : groups = pre ++ g :: post) (hfirst : ∀ k ∈ pre, k.account ≠ g.account)
    (hg' : groups' = pre' ++ g' :: post') (hfirst' : ∀ k ∈ pre', k.account ≠ g.account)
    (ha : g'.account = g.account) : g'.contents = g.contents ∧ pre'.length = pre.length := by
  obtain ⟨pre₀, g₀, post₀, hsplit, hc, hprec, -⟩ := split_of_contents h hg'
  have hlength := congrArg List.length hprec
  rw [List.length_map, List.length_map] at hlength
  rcases append_cons_cases (hsplit.symm.trans hg) with ⟨rfl, rfl, -⟩ | ⟨hmem, -⟩ | ⟨hmem, -⟩
  · exact ⟨hc, hlength⟩
  · have haccount : g'.account = g₀.account := congrArg Prod.fst hc
    exact absurd (haccount.symm.trans ha) (hfirst g₀ hmem)
  · obtain ⟨k', hk', hkc⟩ := mem_groups_of_contents hprec.symm hmem
    exact absurd (congrArg Prod.fst hkc) (hfirst' k' hk')

/-- If all hand-overs are consistent, the first group of an account lists nothing that a
later group lists: sorting the account makes the index point into it. -/
theorem Consistently.apart (hc : Consistently ε s) (hs : s.Fresh) (hg : s.groups = pre ++ g :: post)
    (hfirst : ∀ k ∈ pre, k.account ≠ g.account) {x : Row} (hx : x ∈ g.rows) {k : Group}
    (hk : k ∈ post) {y : Row} (hy : y ∈ k.rows) : y.point ≠ x.point := by
  intro hp
  have hgmem : g ∈ s.groups := by rw [hg]; simp
  obtain ⟨place, r, hlast, hrp, hone, hrun⟩ :=
    hs.toggle (ε := ε) ⟨x, List.mem_flatMap.mpr ⟨g, hgmem, hx⟩, rfl⟩
  -- what is picked first is in a later group
  have hlater : pre.length < place.1 := by
    obtain ⟨l, l', rfl⟩ := List.append_of_mem hk
    obtain ⟨m, m', hm⟩ := List.append_of_mem hy
    have hst : Stands s.groups ((pre ++ g :: l).length, m.length) y (pre ++ g :: l) k l' m m' :=
      ⟨by rw [hg]; simp, hm, rfl⟩
    have hle := hlast.2 _ y hst.row? (hp.trans hrp.symm)
    rw [List.length_append, List.length_cons] at hle
    dsimp only at hle
    omega
  have hcontents := contents_mark s x.point true place r
  have hmove := Move.sortAccount (ε := ε) (s.mark x.point true place r) g.account .amount
  rcases (s.mark x.point true place r).sortAccount_run g.account .amount with
    ⟨-, hno⟩ | ⟨pre', g', post', hg', hfirst', ha, hsort⟩
  · obtain ⟨k', hk', hkc⟩ := mem_groups_of_contents hcontents.symm hgmem
    exact hno k' hk' (congrArg Prod.fst hkc)
  · obtain ⟨hgc, hlength⟩ := first_of_contents hcontents hg hfirst hg' hfirst' ha
    rw [hsort] at hmove
    obtain ⟨x', hx', ho⟩ := mem_of_contents hgc.symm hx
    obtain ⟨j, z, hfound, hz, -⟩ := found_sortGroup (s.mark x.point true place r) .amount pre' post'
      ⟨x', hx', congrArg (·.toOutPoint) ho⟩
    have hsel := hc.selected_of_found (hrun.step hmove) (by simp)
      (hone.resorted (rows_sortGroup_perm hg' _) rfl rfl) hfound
    -- but nothing in this group has been flagged
    obtain ⟨l, l', hl⟩ := List.append_of_mem hz
    have hz' := (Stands.mk hg' hl rfl).row?
    have hne : ¬(pre'.length, l.length) = place := by
      intro heq
      rw [← heq] at hlater
      dsimp only at hlater
      omega
    rw [row?_mark, if_neg hne, Option.map_id] at hz'
    have hno := hs.unpicked z (mem_rows_iff.mpr ⟨_, hz'⟩)
    rw [hsel] at hno
    cases hno

/-- In a sorted listing the last row with an outpoint comes after all others that its
group lists. -/
theorem IsLast.inOrder (h : s.IsLast place r)
    (hsorted : ∀ k ∈ s.groups, k.rows.Pairwise fun x y => c.inOrder d x y = true)
    {groups : List Group} (hcontents : s.groups.map Group.contents = groups.map Group.contents)
    (hg : groups = pre ++ g :: post) (hfree : ∀ k ∈ post, ∀ x ∈ k.rows, x.point ≠ r.point)
    {x : Row} (hx : x ∈ g.rows) (hp : x.point = r.point) : c.inOrder d x r = true := by
  obtain ⟨pre', g', post', above, below, hst, hbelow, hpost⟩ := h.stands
  obtain ⟨pre₀, g₀, post₀, hsplit, hgc, -, hpostc⟩ := split_of_contents hcontents hst.groups_eq
  have hr : r ∈ g'.rows := by rw [hst.rows_eq]; simp
  -- it is the same group, the last one that lists the outpoint
  have hg₀ : g₀ = g := by
    rcases append_cons_cases (hsplit.symm.trans hg) with ⟨-, heq, -⟩ | ⟨-, hmem⟩ | ⟨-, hmem⟩
    · exact heq
    · exact absurd hp (free_of_contents hpostc.symm hpost g hmem x hx)
    · obtain ⟨z, hz, ho⟩ := mem_of_contents hgc hr
      exact absurd (congrArg (·.toOutPoint) ho) (hfree g₀ hmem z hz)
  subst hg₀
  obtain ⟨z, hz, ho⟩ := mem_of_contents hgc.symm hx
  have hzx : c.inOrder d x r = c.inOrder d z r := by
    unfold Column.inOrder
    rw [ho]
  have hrows := hsorted g' (by rw [hst.groups_eq]; simp)
  rw [hzx]
  rw [hst.rows_eq] at hz hrows
  rcases List.mem_append.mp hz with hz | hz
  · exact (List.pairwise_append.mp hrows).2.2 z hz r List.mem_cons_self
  · rcases List.mem_cons.mp hz with rfl | hz
    · have htotal := Column.inOrder_total c d z z
      rwa [Bool.or_self] at htotal
    · have hzp : z.point = x.point := congrArg (·.toOutPoint) ho
      exact absurd (hzp.trans hp) (hbelow z hz)

theorem pairwise_sort (s : Selection) (c : Column) : ∀ k ∈ (s.sort c).2.groups,
    k.rows.Pairwise fun x y => c.inOrder (s.tracker.click c).direction x y = true := by
  intro k hk
  obtain ⟨g, -, rfl⟩ := List.mem_map.mp hk
  exact pairwise_sortRows c _ _

/-- After a pick and a sort the index finds the picked row, if all hand-overs are
consistent. -/
theorem Consistently.flagged_sort (hc : Consistently ε s) {es : List Event} (h : Runs ε s es s')
    (hes : ∀ groups, Event.fetch (.ok groups) ∉ es) (hone : One p s')
    (hp : ∃ x ∈ s'.rows, x.point = p) (c : Column) :
    ∃ place r, (s'.sort c).2.IsLast place r ∧ r.point = p ∧ s'.flagged = [r] ∧
      One p (s'.sort c).2 := by
  have hperm := rows_sort_perm s' c
  have hone' : One p (s'.sort c).2 := hone.resorted hperm rfl rfl
  have hindexed : (s'.sort c).2.Indexed := indexed_indexGroups rfl
  obtain ⟨place, r, hfound⟩ := hindexed.found
    (exists_row_of_contents (contents_resorted (resorted_sort s' c)) hp)
  have hlatest : (s'.sort c).2.Latest := latest_indexGroups rfl
  obtain ⟨hlast, hrp⟩ := hlatest.isLast hindexed hfound
  have hsel := hc.selected_of_found (h.step (.sort s' c)) (by simpa using hes) hone' hfound
  obtain ⟨m, hm⟩ := List.length_eq_one_iff.mp hone.flagged
  have hr : r ∈ s'.flagged :=
    List.mem_filter.mpr ⟨hperm.mem_iff.mp (mem_rows_iff.mpr ⟨place, hlast.1⟩), hsel⟩
  rw [hm, List.mem_singleton] at hr
  exact ⟨place, r, hlast, hrp, by rw [hm, hr], hone'⟩

/-- If all hand-overs are consistent, rows with one outpoint tie: sorted both ways the
same row comes last. -/
theorem Consistently.ties (hc : Consistently ε s) (hs : s.Fresh) (hg : s.groups = pre ++ g :: post)
    (hfree : ∀ k ∈ post, ∀ x ∈ k.rows, x.point ≠ p) : TiesAt p g.rows := by
  intro x hx y hy hxp hyp c
  have hmem : x ∈ s.rows := List.mem_flatMap.mpr ⟨g, by rw [hg]; simp, hx⟩
  obtain ⟨place, r, hlast, -, hone, hrun⟩ := hs.toggle (ε := ε) ⟨x, hmem, hxp⟩
  have hcontents := contents_mark s p true place r
  have htracker : (s.mark p true place r).tracker = {} := by
    rw [mark_eq]
    exact hs.tracker
  generalize s.mark p true place r = s₁ at *
  have hp₁ := exists_row_of_contents (p := p) hcontents ⟨x, hmem, hxp⟩
  obtain ⟨q₁, m₁, hlast₁, hm₁, hflagged₁, hone₁⟩ := hc.flagged_sort hrun (by simp) hone hp₁ c
  have hcontents₁ := (contents_resorted (resorted_sort s₁ c)).trans hcontents
  have hp₂ := exists_row_of_contents (p := p) hcontents₁ ⟨x, hmem, hxp⟩
  obtain ⟨q₂, m₂, hlast₂, hm₂, hflagged₂, -⟩ :=
    hc.flagged_sort (hrun.step (.sort s₁ c)) (by simp) hone₁ hp₂ c
  have hcontents₂ := (contents_resorted (resorted_sort (s₁.sort c).2 c)).trans hcontents₁
  -- both times it is the one flagged row
  obtain rfl : m₁ = m₂ := by
    have hperm : (s₁.sort c).2.flagged.Perm s₁.flagged := (rows_sort_perm s₁ c).filter _
    rw [hflagged₁, hflagged₂] at hperm
    exact (List.singleton_inj.mp (List.perm_singleton.mp hperm)).symm
  have hup : (s₁.tracker.click c).direction = .ascending := by
    rw [htracker]
    rfl
  have hdown : ((s₁.sort c).2.tracker.click c).direction = .descending := by
    show ((s₁.tracker.click c).click c).direction = .descending
    rw [htracker]
    simp [Tracker.click, Tracker.direction]
  subst hm₁
  have hcompare : ∀ z ∈ g.rows, z.point = m₁.point → c.compare z.output m₁.output = .eq := by
    intro z hz hzp
    refine Column.tied_of_inOrder ?_ ?_
    · exact hlast₁.inOrder (hup ▸ pairwise_sort s₁ c) hcontents₁ hg hfree hz hzp
    · exact hlast₂.inOrder (hdown ▸ pairwise_sort (s₁.sort c).2 c) hcontents₂ hg hfree hz hzp
  exact Std.TransCmp.eq_trans (hcompare x hx hxp) (Std.OrientedCmp.eq_symm (hcompare y hy hyp))

/-- If a steady listing is loaded, all hand-overs are consistent. -/
theorem consistently_of_steady (hf : s.Faithful) (ho : s.Ordered picks) (hb : s.Balanced) :
    Consistently ε s := by
  intro es s' sub s'' h hes hm
  obtain ⟨hf', ho'⟩ := h.in_step hf ho fun groups hmem => absurd hmem (hes groups)
  cases hm.change with
  | failed he => exact he.elim
  | submit => exact hf'.consistent ho' (h.balanced hb)

/-- After a fetch all hand-overs until the next one are consistent if and only if the
listing that was loaded is steady. -/
theorem Runs.submissions_consistent_iff {w : WalletId} {es : List Event} {groups : List Group}
    (h : Runs ε { wallet := w } (es ++ [.fetch (.ok groups)]) s) :
    Consistently ε s ↔ Steady groups := by
  have hb := h.balanced (balanced_new w)
  obtain ⟨s₀, -, hm⟩ := h.last
  cases hm.change with
  | failed he => exact he.elim
  | @load sizing _ hg =>
    constructor
    · intro hc
      have hfresh : (s₀.load sizing groups).Fresh := fresh_load hg
      refine ⟨fun pre g post hgs hfirst x hx k hk y hy => ?_, fun pre g post hgs p hfree => ?_⟩
      · exact hc.apart hfresh hgs hfirst hx hk hy
      · exact hc.ties hfresh hgs hfree
    · intro hs
      exact consistently_of_steady (faithful_load hs hg) (ordered_nil rfl) hb

/-- With one name for two accounts the sample is not steady, with two names it is. -/
theorem Runs.submissions_consistent_iff_sample :
    ¬Consistently InMemoryEngine (Sample.loaded "a") ∧
      Consistently InMemoryEngine (Sample.loaded "b") := by
  constructor
  · intro hc
    have hrun : Runs InMemoryEngine { wallet := 7 }
        ([] ++ [.fetch (.ok (Sample.loaded "a").groups)]) (Sample.loaded "a") :=
      Sample.runs_loaded "a" rfl
    have hsteady := hrun.submissions_consistent_iff.mp hc
    have hgroups : (Sample.loaded "a").groups =
        [⟨0, "a", [Sample.row 0]⟩, ⟨1, "a", [Sample.row 1]⟩] := by rfl
    exact hsteady.apart [] _ _ hgroups (by simp) (Sample.row 0) (by simp) _ List.mem_cons_self
      (Sample.row 1) (by simp) rfl
  · have hrun : Runs InMemoryEngine { wallet := 7 }
        ([] ++ [.fetch (.ok (Sample.loaded "b").groups)]) (Sample.loaded "b") :=
      Sample.runs_loaded "b" rfl
    refine hrun.submissions_consistent_iff.mpr ?_
    have hgroups : (Sample.loaded "b").groups = [⟨0, "a", [Sample.row 0]⟩, ⟨1, "b", []⟩] := by rfl
    rw [hgroups]
    exact steady_of_distinct (List.nodup_singleton _)

/-- Not everything that is handed over is consistent: the output is picked, account 0 is
sorted and the output is picked again. -/
theorem Runs.submission_inconsistent :
    ¬∀ es s sub s', Runs InMemoryEngine { wallet := 7 } es s →
      Move InMemoryEngine s (.submit (.ok sub)) s' → sub.Consistent s := by
  intro hall
  have hrun := (((Sample.runs_loaded "a" rfl).step (.setSelected _ Sample.point true)).step
    (.sortAccount _ 0 .amount)).step (.setSelected _ Sample.point true)
  have hmove := Move.submit (ε := InMemoryEngine) ((setSelected Sample.point true).run
    ((sortAccount 0 .amount).run ((setSelected Sample.point true).run (Sample.loaded "a")).2).2).2
  have hsubmit : (submit.run ((setSelected Sample.point true).run ((sortAccount 0 .amount).run
      ((setSelected Sample.point true).run (Sample.loaded "a")).2).2).2).1 =
      .ok ⟨7, [(Sample.row 0).output], 1000, .unavailable⟩ := by decide +kernel
  rw [hsubmit] at hmove
  have hsub := hall _ _ _ _ hrun hmove
  have htotal : 1000 = 500 := hsub.total
  omega

end Selection

end Purse
